import ProkaKernel.ConsoleBounds

namespace ProkaKernel

namespace Framebuffer

/-- Where the cursor is between two characters: inside of the framebuffer, and at
the left edge of a glyph. -/
structure Cursor (fb : Framebuffer) (position : Nat × Nat) : Prop extends fb.Holds position where
  column : position.1 % 8 = 0

section
variable {overflow : Overflow} {fb : Framebuffer} {position cell : Nat × Nat} {c : Nat} {m : Move}

theorem Cursor.next (cursor : fb.Cursor position) (roomy : fb.Roomy) (c : Nat) : fb.Cursor (fb.nextOf position c) := by
  refine ⟨roomy.next position c, ?_⟩
  have column := cursor.column
  unfold nextOf cellOf
  split
  · rfl
  · dsimp only
    split <;> omega

/-- The cell of a glyph is the one in numbers without bounds, or, without overflow
checks, the one whose right edge is `2 ^ 64`, which the code takes for zero. -/
theorem Cursor.cellAt_cases (cursor : fb.Cursor position) (roomy : fb.Roomy)
    (found : fb.cellAt overflow position.1 (fb.rowOf position.2) = some cell) :
    cell = fb.cellOf position ∨ overflow = .wraps ∧ position.1 + 8 = 2 ^ 64 ∧ cell = (position.1, fb.rowOf position.2) := by
  have words := fb.words
  have left := cursor.left
  have column := cursor.column
  by_cases right : position.1 + 8 < 2 ^ 64
  · rw [cellAt_eq overflow roomy right] at found
    exact .inl (Option.some.inj found).symm
  · have edge : position.1 + 8 = 2 ^ 64 := by omega
    rw [cellAt, fontW, edge] at found
    cases overflow with
    | panics => cases found
    | wraps => exact .inr ⟨rfl, edge, (Option.some.inj found).symm⟩

/-- A glyph is drawn to the left of the right edge. -/
theorem Cursor.cell_inside (cursor : fb.Cursor position) (roomy : fb.Roomy)
    (found : fb.cellAt overflow position.1 (fb.rowOf position.2) = some cell) :
    (cell.1 + 8) % 2 ^ 64 ≤ fb.width ∧ (overflow = .panics ∨ fb.width + 8 < 2 ^ 64 → cell.1 + 8 ≤ fb.width) := by
  have left := cursor.left
  rcases cursor.cellAt_cases roomy found with rfl | ⟨rfl, edge, rfl⟩
  · obtain ⟨inside, _⟩ := roomy.cell position
    exact ⟨(Nat.mod_le _ _).trans inside, fun _ => inside⟩
  · refine ⟨by rw [edge]; exact Nat.zero_le _, ?_⟩
    rintro (checked | narrow)
    · cases checked
    · omega

theorem Cursor.move (cursor : fb.Cursor position) (roomy : fb.Roomy) (moved : fb.move overflow position c = some m) :
    fb.Cursor m.next := by
  have words := fb.words
  by_cases newline : c = 10
  · rw [move_eq overflow cursor.toHolds roomy (.inl newline)] at moved
    cases moved
    exact cursor.next roomy c
  · rw [move_glyph overflow cursor.toHolds roomy newline] at moved
    obtain ⟨cell, found, moved⟩ := Option.bind_eq_some_iff.mp moved
    obtain ⟨x, advanced, rfl⟩ := Option.map_eq_some_iff.mp moved
    rcases cursor.cellAt_cases roomy found with rfl | ⟨rfl, edge, rfl⟩
    · obtain ⟨inside, _⟩ := roomy.cell position
      rw [overflow.fit_of_lt (by omega)] at advanced
      cases advanced
      have next := cursor.next roomy c
      rwa [nextOf, if_neg newline] at next
    · have row := roomy.row position.2
      rw [Overflow.fit_wraps, edge] at advanced
      cases advanced
      exact ⟨⟨Nat.zero_le _, by dsimp only; omega⟩, rfl⟩

end

end Framebuffer

namespace Console

/-- The console at the moment when a glyph is drawn. -/
def beforeGlyph (overflow : Overflow) (con : Console) : Option Console := do
  let con ← con.makeRoom overflow
  con.wrapLine overflow

section
variable {overflow : Overflow} {fb : Framebuffer} {con con' : Console}

theorem beforeGlyph_cell (holds : con.fb.Holds con.position) (roomy : con.fb.Roomy)
    (run : con.beforeGlyph overflow = some con') :
    con.fb.cellAt overflow con.position.1 (con.fb.rowOf con.position.2) = some con'.position := by
  rw [beforeGlyph, makeRoom_eq, con.fb.settle_eq overflow holds roomy, Option.bind_some] at run
  obtain ⟨con1, scrolled, run⟩ := Option.bind_eq_some_iff.mp run
  obtain ⟨mem, _, rfl⟩ := Option.map_eq_some_iff.mp scrolled
  rw [wrapLine_eq] at run
  obtain ⟨cell, found, rfl⟩ := Option.map_eq_some_iff.mp run
  exact found

/-- The console between two characters. -/
structure Placed (fb : Framebuffer) (con : Console) : Prop where
  screen : con.fb = fb
  cursor : fb.Cursor con.position
  sized : con.Sized

theorem Placed.init (fb : Framebuffer) (mem : Mem) : Placed fb (init fb mem) :=
  ⟨rfl, ⟨⟨Nat.zero_le _, Nat.zero_le _⟩, rfl⟩, ⟨rfl, fun inside => absurd inside not_csi_normal⟩⟩

theorem Placed.printNormalChar {c : Nat} (placed : Placed fb con) (roomy : fb.Roomy)
    (run : con.printNormalChar overflow c = some con') : Placed fb con' := by
  obtain ⟨rfl, cursor, sized⟩ := placed
  obtain ⟨m, moved, same⟩ := printNormalChar_keeps run
  rw [same]
  exact ⟨rfl, cursor.move roomy moved, ⟨sized.length, sized.count⟩⟩

theorem Placed.parse {c : UInt8} (placed : Placed fb con) (run : con.parse overflow c = some con') : Placed fb con' := by
  rcases parse_cases overflow placed.sized c with ⟨panics, _⟩ | ⟨con1, same, parsed, _⟩
  · rw [panics] at run
    cases run
  · cases same.symm.trans run
    refine ⟨parsed.fb.trans placed.screen, ?_, parsed.sized⟩
    rw [parsed.position]
    exact placed.cursor

theorem Placed.printChar {c : UInt8} (placed : Placed fb con) (roomy : fb.Roomy)
    (run : con.printChar overflow c = some con') : Placed fb con' := by
  rw [printChar_eq] at run
  obtain ⟨con1, parsed, printed⟩ := Option.bind_eq_some_iff.mp run
  exact foldlM_keeps (fun before step => before.printNormalChar roomy step) (placed.parse parsed) printed

theorem Placed.printString {s : List UInt8} (placed : Placed fb con) (roomy : fb.Roomy)
    (run : con.printString overflow s = some con') : Placed fb con' :=
  foldlM_keeps (fun before step => before.printChar roomy step) placed run

theorem Placed.callsOf {cs : List Nat} (placed : Placed fb con) (roomy : fb.Roomy) :
    ∀ call ∈ callsOf overflow con cs, Placed fb call.2 := by
  induction cs generalizing con with
  | nil => simp [Console.callsOf]
  | cons c cs ih =>
    intro call member
    rw [Console.callsOf] at member
    rcases List.mem_cons.mp member with rfl | later
    · exact placed
    · cases run : con.printNormalChar overflow c with
      | none => simp [run] at later
      | some con1 =>
        rw [run] at later
        exact ih (placed.printNormalChar roomy run) call later

/-- Each call of `print_normal_char` finds the cursor where it may be. -/
theorem Placed.calls {s : List UInt8} (placed : Placed fb con) (roomy : fb.Roomy) :
    ∀ call ∈ con.calls overflow s, Placed fb call.2 := by
  induction s generalizing con with
  | nil => simp [Console.calls]
  | cons c s ih =>
    intro call member
    rw [Console.calls] at member
    cases parsed : con.parse overflow c with
    | none => simp [parsed] at member
    | some con1 =>
      rw [parsed] at member
      rcases List.mem_append.mp member with here | later
      · exact (placed.parse parsed).callsOf roomy call here
      · cases run : con.printChar overflow c with
        | none => simp [run] at later
        | some con2 =>
          rw [run] at later
          exact ih (placed.printChar roomy run) call later

/-- Without overflow checks every ASCII text is printed. -/
theorem printString_wraps {s : List UInt8} (sized : con.Sized) (ascii : ∀ c ∈ s, c.toNat < 128) :
    ∃ con', con.printString .wraps s = some con' := by
  have follows : Follows con con con := ⟨rfl, rfl, rfl, rfl, rfl⟩
  obtain ⟨con', _, _, _, run, _⟩ := follows.printString sized ascii
  exact ⟨con', run⟩

/-- After each byte of a text, and at each call of `print_normal_char` that it
makes, the cursor is on the grid of glyphs and inside of the framebuffer. So the
height of the screen below it is no underflow, and a glyph is drawn to the left
of the right edge: in 64 bits always, and in numbers without bounds when the sum
is checked or the framebuffer is narrow enough for it. -/
theorem cursor_invariant {fb : Framebuffer} (roomy : fb.Roomy) (mem : Mem) (overflow : Overflow) {s : List UInt8}
    (ascii : ∀ c ∈ s, c.toNat < 128) :
    (∀ p, p <+: s → (overflow = .wraps → ∃ con, (init fb mem).printString overflow p = some con) ∧
      ∀ con, (init fb mem).printString overflow p = some con → fb.Cursor con.position) ∧
    ∀ call ∈ (init fb mem).calls overflow s, fb.Cursor call.2.position ∧
      overflow.sub 64 fb.height call.2.position.2 = some (fb.height - call.2.position.2) ∧
      ∀ con, call.1 ≠ 10 → call.2.beforeGlyph overflow = some con →
        (con.position.1 + 8) % 2 ^ 64 ≤ fb.width ∧
          (overflow = .panics ∨ fb.width + 8 < 2 ^ 64 → con.position.1 + 8 ≤ fb.width) := by
  have start := Placed.init fb mem
  constructor
  · intro p first
    constructor
    · rintro rfl
      exact printString_wraps start.sized fun c member => ascii c (first.subset member)
    · intro con run
      exact (start.printString roomy run).cursor
  · intro call member
    obtain ⟨rfl, cursor, _⟩ := start.calls roomy call member
    refine ⟨cursor, overflow.sub_of_le 64 cursor.above, fun con _ run => ?_⟩
    exact cursor.cell_inside roomy (beforeGlyph_cell cursor.toHolds roomy run)

end

/-- Three letters on lines of two, with a newline. -/
theorem cursor_invariant_small :
    (∃ con, (init smallFramebuffer fun _ => 0).printString .wraps [0x61, 0x62, 0x63] = some con ∧
      smallFramebuffer.Cursor con.position) ∧
    ∀ call ∈ (init smallFramebuffer fun _ => 0).calls .wraps [0x61, 0x62, 0x63, 0x0a],
      smallFramebuffer.Cursor call.2.position := by
  obtain ⟨after, calls⟩ := cursor_invariant smallFramebuffer_roomy (fun _ => 0) .wraps
    (s := [0x61, 0x62, 0x63, 0x0a]) (by simp)
  obtain ⟨runs, placed⟩ := after [0x61, 0x62, 0x63] ⟨[0x0a], rfl⟩
  obtain ⟨con, run⟩ := runs rfl
  exact ⟨⟨con, run, placed con run⟩, fun call member => (calls call member).1⟩

end Console

end ProkaKernel

import ProkaKernel.Colors
import ProkaKernel.ConsoleSafety

namespace ProkaKernel

/-- Without an alpha channel the fourth byte of a colour is zero. -/
theorem Color.toU32_lt (color : Color) : (color.toU32 false).toNat < 2 ^ 24 := by
  have r : color.r.toNat < 256 := color.r.toNat_lt
  have g : color.g.toNat < 256 := color.g.toNat_lt
  have b : color.b.toNat < 256 := color.b.toNat_lt
  rw [toU32_toNat]
  omega

namespace Framebuffer

/-- A framebuffer with room, with pixels of three or four bytes in its lines. -/
structure Packed (fb : Framebuffer) : Prop extends fb.Roomy where
  bpp : fb.bpp = 3 ∨ fb.bpp = 4
  pitch : fb.width * fb.bpp ≤ fb.pitch

/-- The characters of a text and the positions of the cursor at which they are
printed. -/
def sites (fb : Framebuffer) : Nat × Nat → List Nat → List (Nat × Nat × Nat)
  | _, [] => []
  | position, c :: cs => (c, position) :: sites fb (fb.nextOf position c) cs

section
variable {fb : Framebuffer} {position : Nat × Nat}

theorem Packed.positive (packed : fb.Packed) : 0 < fb.bpp := by
  rcases packed.bpp with three | four <;> omega

theorem sites_append (cs ds : List Nat) :
    fb.sites position (cs ++ ds) = fb.sites position cs ++ fb.sites (cs.foldl fb.nextOf position) ds := by
  induction cs generalizing position with
  | nil => rfl
  | cons c cs ih => simp only [List.cons_append, sites, List.foldl_cons, ih]

theorem sites_holds {cs : List Nat} (holds : fb.Holds position) (roomy : fb.Roomy) :
    ∀ site ∈ fb.sites position cs, fb.Holds site.2 ∧ site.1 ∈ cs := by
  induction cs generalizing position with
  | nil => exact fun site none => absurd none List.not_mem_nil
  | cons c cs ih =>
    intro site member
    rcases List.mem_cons.mp member with rfl | later
    · exact ⟨holds, List.mem_cons_self ..⟩
    · obtain ⟨there, inside⟩ := ih (roomy.next _ c) site later
      exact ⟨there, List.mem_cons_of_mem _ inside⟩

/-- The first character that is no newline is printed at the left edge. -/
theorem sites_first {cs : List Nat} {c : Nat} (left : position.1 = 0) (member : c ∈ cs) (other : c ≠ 10) :
    ∃ site ∈ fb.sites position cs, site.1 ≠ 10 ∧ site.2.1 = 0 := by
  induction cs generalizing position with
  | nil => exact absurd member List.not_mem_nil
  | cons d cs ih =>
    by_cases newline : d = 10
    · have next : (fb.nextOf position d).1 = 0 := by rw [nextOf, if_pos newline]
      have inside : c ∈ cs := (List.mem_cons.mp member).resolve_left fun same => other (same.trans newline)
      obtain ⟨site, there, facts⟩ := ih next inside
      exact ⟨site, List.mem_cons_of_mem _ there, facts⟩
    · exact ⟨(d, position), List.mem_cons_self .., newline, left⟩

end

end Framebuffer

namespace Console

section
variable (overflow : Overflow)

/-- The calls of `print_normal_char` for some characters, each with the console
at that moment. -/
def callsOf : Console → List Nat → List (Nat × Console)
  | _, [] => []
  | con, c :: cs => (c, con) :: match con.printNormalChar overflow c with
    | some con' => callsOf con' cs
    | none => []

/-- The calls of `print_normal_char` while a text is printed. -/
def calls : Console → List UInt8 → List (Nat × Console)
  | _, [] => []
  | con, c :: s => match con.parse overflow c with
    | some con1 => callsOf overflow con1 (con.parseState.handed c) ++ match con.printChar overflow c with
      | some con' => calls con' s
      | none => []
    | none => []

/-- A pixel is drawn inside the framebuffer, and inside of the glyph: whatever is
in memory, no byte behind the framebuffer changes, and no byte of a pixel outside
of the glyph at `cell`. -/
def PixelInside (con : Console) (c : Nat) (cell : Nat × Nat) (line i : Nat) : Prop :=
  ∀ mem con', ({ con with mem := mem } : Console).drawPixel overflow c cell.1 cell.2 line i = some con' →
    (∀ x, con.fb.height * con.fb.pitch ≤ x → con'.mem x = mem x) ∧
    ∀ px py k, px < con.fb.width → py < con.fb.height → k < con.fb.bpp →
      ¬((cell.1 ≤ px ∧ px < cell.1 + 8) ∧ cell.2 ≤ py ∧ py < cell.2 + 16) →
        con'.mem (py * con.fb.pitch + px * con.fb.bpp + k) = mem (py * con.fb.pitch + px * con.fb.bpp + k)

/-- A scroll stays inside the framebuffer: no byte behind it changes, and none
counts. -/
def ScrollInside (con : Console) : Prop :=
  ∀ mem con', ({ con with mem := mem } : Console).scrollUp overflow = some con' →
    (∀ x, con.fb.height * con.fb.pitch ≤ x → con'.mem x = mem x) ∧
    ∀ other other', (∀ x < con.fb.height * con.fb.pitch, other x = mem x) →
      ({ con with mem := other } : Console).scrollUp overflow = some other' →
        ∀ x < con.fb.height * con.fb.pitch, other'.mem x = con'.mem x

/-- A call of `print_normal_char` stays inside the framebuffer, with its scroll
and with every pixel. -/
def CallInside (con : Console) (c : Nat) : Prop :=
  ∀ m, con.fb.move overflow con.position c = some m →
    (m.scrolls = true → con.ScrollInside overflow) ∧
    ∀ cell, m.cell = some cell → ∀ line < 16, ∀ i < 8, con.PixelInside overflow c cell line i

end

section
variable {overflow : Overflow} {con : Console} {c line i : Nat}

/-- A character of the font is printed in every build. -/
theorem printNormalChar_known (overflow : Overflow) (packed : con.fb.Packed) (holds : con.fb.Holds con.position)
    (known : c < 128) :
    ∃ mem, con.printNormalChar overflow c = some (con.onScreen mem (con.fb.nextOf con.position c)) := by
  have prints := (con.fb.prints_iff holds packed.toRoomy packed.positive packed.pitch).mpr fun _ => known
  have run : ∃ con', con.printNormalChar overflow c = some con' := by
    cases overflow with
    | panics => exact Option.isSome_iff_exists.mp ((printNormalChar_isSome_iff holds packed.toRoomy).mpr (.inr prints))
    | wraps => exact printNormalChar_wraps con known
  obtain ⟨con', run⟩ := run
  have same := printNormalChar_next holds packed.toRoomy (.inr prints.right) run
  rw [same] at run
  exact ⟨_, run⟩

/-- The characters are printed one after another, each at its site. -/
theorem callsOf_sites (overflow : Overflow) (packed : con.fb.Packed) (holds : con.fb.Holds con.position) {cs : List Nat}
    (known : ∀ c ∈ cs, c < 128) :
    (callsOf overflow con cs).map (fun call => (call.1, call.2.fb, call.2.position)) =
      (con.fb.sites con.position cs).map (fun site => (site.1, con.fb, site.2)) ∧
    ∃ mem, cs.foldlM (fun con c => con.printNormalChar overflow c) con =
      some (con.onScreen mem (cs.foldl con.fb.nextOf con.position)) := by
  induction cs generalizing con with
  | nil => exact ⟨rfl, con.mem, rfl⟩
  | cons c cs ih =>
    obtain ⟨mem, run⟩ := printNormalChar_known overflow packed holds (known c (List.mem_cons_self ..))
    obtain ⟨rest, mem', done⟩ := @ih (con.onScreen mem (con.fb.nextOf con.position c)) packed
      (packed.toRoomy.next con.position c) fun c later => known c (List.mem_cons_of_mem _ later)
    refine ⟨?_, mem', ?_⟩
    · rw [callsOf, run, Framebuffer.sites, List.map_cons, List.map_cons]
      exact congrArg _ rest
    · rw [List.foldlM_cons, run]
      exact done

theorem calls_sites (packed : con.fb.Packed) (holds : con.fb.Holds con.position) (sized : con.Sized) {s : List UInt8}
    (ascii : ∀ c ∈ s, c.toNat < 128) :
    (con.calls overflow s).map (fun call => (call.1, call.2.fb, call.2.position)) =
      (con.fb.sites con.position
        (con.parseState.handedAll (readable overflow con.parseState con.currentParam s))).map
          (fun site => (site.1, con.fb, site.2)) := by
  induction s generalizing con with
  | nil => rfl
  | cons c s ih =>
    rw [calls, printChar_eq]
    rcases parse_cases overflow sized c with ⟨panics, stops⟩ | ⟨con1, run, parsed, reads⟩
    · rw [panics, stops]
      rfl
    · have packed1 : con1.fb.Packed := by
        rw [parsed.fb]
        exact packed
      have holds1 : con1.fb.Holds con1.position := by
        rw [parsed.fb, parsed.position]
        exact holds
      obtain ⟨first, mem, done⟩ := callsOf_sites overflow packed1 holds1
        (handed_lt con.parseState (ascii c (List.mem_cons_self ..)))
      have rest := @ih (con1.onScreen mem ((con.parseState.handed c).foldl con1.fb.nextOf con1.position)) packed1
        (holds_foldl holds1 packed1.toRoomy _) ⟨parsed.sized.length, parsed.sized.count⟩
        fun c later => ascii c (List.mem_cons_of_mem _ later)
      rw [run]
      dsimp only
      rw [Option.bind_some, done, reads, ParseState.handedAll, Framebuffer.sites_append, List.map_append, List.map_append,
        first, ← parsed.fb, ← parsed.position, ← parsed.state]
      exact congrArg _ rest

/-- A visible pixel of a character of the font is a store of four bytes, with
zero as the last one if there is no alpha channel. -/
theorem drawPixel_store (overflow : Overflow) (packed : con.fb.Packed) {cell : Nat × Nat} (left : cell.1 + i < con.fb.width)
    (visible : cell.2 + line < con.fb.height) (short : line < 16) (known : c < 128) (mem : Mem) :
    ∃ value, ({ con with mem := mem } : Console).drawPixel overflow c cell.1 cell.2 line i = some { con with
      mem := mem.store ((cell.2 + line) * con.fb.pitch + (cell.1 + i) * con.fb.bpp) 4 value } ∧
      (con.fb.bpp = 3 → value < 2 ^ 24) := by
  have inMemory := con.fb.inMemory
  have words := con.fb.words
  have row : (cell.2 + line + 1) * con.fb.pitch ≤ con.fb.height * con.fb.pitch := Nat.mul_le_mul_right _ visible
  have column : (cell.1 + i) * con.fb.bpp ≤ con.fb.width * con.fb.bpp := Nat.mul_le_mul_right _ left.le
  have pitch := packed.pitch
  rw [Nat.succ_mul] at row
  have small : (cell.2 + line) * con.fb.pitch + (cell.1 + i) * con.fb.bpp < 2 ^ 64 := by omega
  have place := con.fb.pixelAt_eq overflow left (by omega) fun _ => small
  rw [if_pos visible] at place
  obtain ⟨value, color⟩ := Option.isSome_iff_exists.mp
    ((pixelColor_isSome con.fb con.fgColor con.bgColor c i short).mpr known)
  refine ⟨value, ?_, fun three => ?_⟩
  · have run : con.pixelMem overflow c cell.1 cell.2 line i mem =
        some (mem.store ((cell.2 + line) * con.fb.pitch + (cell.1 + i) * con.fb.bpp) 4 value) := by
      simp only [pixelMem, place, Option.bind_eq_bind, Option.bind_some, color]
      rfl
    have drawn : (con.onScreen mem con.position).drawPixel overflow c cell.1 cell.2 line i = _ := drawPixel_mem
    rw [run, Option.map_some] at drawn
    exact drawn
  · unfold pixelColor at color
    obtain ⟨glyph, _, color⟩ := Option.bind_eq_some_iff.mp color
    obtain ⟨bits, _, color⟩ := Option.bind_eq_some_iff.mp color
    cases color
    rw [three]
    exact Color.toU32_lt _

theorem drawPixel_below {cell : Nat × Nat} (left : cell.1 + i < con.fb.width) (below : con.fb.height ≤ cell.2 + line)
    (small : cell.2 + line < 2 ^ 64) (mem : Mem) :
    ({ con with mem := mem } : Console).drawPixel overflow c cell.1 cell.2 line i = some { con with mem := mem } :=
  drawPixel_clipped overflow below (by have words := con.fb.words; omega) small

/-- A pixel that is stored inside its own line stays inside the framebuffer. -/
theorem pixel_in_line {fb : Framebuffer} {x y px py k : Nat} (packed : fb.Packed) (column : px < fb.width) (byte : k < fb.bpp)
    (line : x * fb.bpp + 4 ≤ fb.pitch) (lower : y * fb.pitch + x * fb.bpp ≤ py * fb.pitch + px * fb.bpp + k)
    (upper : py * fb.pitch + px * fb.bpp + k < y * fb.pitch + x * fb.bpp + 4) :
    py = y ∧ x * fb.bpp ≤ px * fb.bpp + k ∧ px * fb.bpp + k < x * fb.bpp + 4 := by
  have pitch := packed.pitch
  have own : (px + 1) * fb.bpp ≤ fb.width * fb.bpp := Nat.mul_le_mul_right _ column
  rw [Nat.succ_mul] at own
  rcases Nat.lt_trichotomy py y with before | rfl | after
  · have apart := Nat.mul_le_mul_right fb.pitch (show py + 1 ≤ y from before)
    rw [Nat.succ_mul] at apart
    omega
  · omega
  · have apart := Nat.mul_le_mul_right fb.pitch (show y + 1 ≤ py from after)
    rw [Nat.succ_mul] at apart
    omega

/-- The four bytes of a pixel are its own, or they go on in the next pixel of its
glyph, or behind the last one of a line. -/
theorem pixelInside (packed : con.fb.Packed) {cell : Nat × Nat} (left : cell.1 + 8 ≤ con.fb.width)
    (above : cell.2 ≤ con.fb.height) (own : con.fb.bpp = 4 ∨ cell.1 + 8 = con.fb.width ∧ con.fb.width * 3 < con.fb.pitch)
    (known : c < 128) (short : line < 16) (narrow : i < 8) : con.PixelInside overflow c cell line i := by
  intro mem con' run
  have inMemory := con.fb.inMemory
  have pitch := packed.pitch
  have column : cell.1 + i < con.fb.width := by omega
  by_cases visible : cell.2 + line < con.fb.height
  · obtain ⟨value, stored, _⟩ := drawPixel_store overflow packed column visible short known mem
    cases stored.symm.trans run
    have inLine : (cell.1 + i) * con.fb.bpp + 4 ≤ con.fb.pitch := by
      rcases packed.bpp with three | four
      · rw [three] at own ⊢
        omega
      · rw [four] at pitch ⊢
        omega
    have row : (cell.2 + line + 1) * con.fb.pitch ≤ con.fb.height * con.fb.pitch := Nat.mul_le_mul_right _ visible
    rw [Nat.succ_mul] at row
    refine ⟨fun x behind => if_neg (by omega), fun px py k inside _ byte outside => if_neg fun hit => outside ?_⟩
    obtain ⟨rfl, lower, upper⟩ := pixel_in_line packed inside byte inLine hit.1 hit.2
    rcases packed.bpp with three | four
    · rw [three] at lower upper byte own
      omega
    · rw [four] at lower upper byte
      omega
  · have wide := packed.wide
    have width : con.fb.width * 1 ≤ con.fb.width * con.fb.bpp := Nat.mul_le_mul_left _ packed.positive
    have lines : con.fb.height * 8 ≤ con.fb.height * con.fb.pitch := Nat.mul_le_mul_left _ (by omega)
    have high := packed.high
    rw [drawPixel_below column (Nat.le_of_not_lt visible) (by omega) mem] at run
    cases run
    exact ⟨fun _ _ => rfl, fun _ _ _ _ _ _ _ => rfl⟩

/-- The last pixel of a glyph of pixels of three bytes, at the left edge: its
fourth byte is one of the next pixel, or of the next line, or behind the
framebuffer. -/
theorem not_pixelInside (packed : con.fb.Packed) {cell : Nat × Nat} (edge : cell.1 = 0) (above : cell.2 + 16 ≤ con.fb.height)
    (three : con.fb.bpp = 3) (spills : ¬(con.fb.width = 8 ∧ 24 < con.fb.pitch)) (known : c < 128) :
    ¬con.PixelInside overflow c cell 15 7 := by
  intro inside
  have wide := packed.wide
  have pitch := packed.pitch
  rw [three] at pitch
  obtain ⟨value, stored, small⟩ := drawPixel_store overflow packed (show cell.1 + 7 < con.fb.width by omega)
    (show cell.2 + 15 < con.fb.height by omega) (by decide) known (fun _ => 1)
  obtain ⟨behind, pixels⟩ := inside _ _ stored
  have changed : (Mem.store (fun _ => 1) ((cell.2 + 15) * con.fb.pitch + (cell.1 + 7) * con.fb.bpp) 4 value)
      ((cell.2 + 15) * con.fb.pitch + 24) ≠ 1 := by
    have zero : value / 256 ^ 3 = 0 := Nat.div_eq_of_lt (small three)
    rw [Mem.store, if_pos (by rw [three]; omega), three,
      show (cell.2 + 15) * con.fb.pitch + 24 - ((cell.2 + 15) * con.fb.pitch + (cell.1 + 7) * 3) = 3 by omega, zero]
    decide
  refine changed ?_
  by_cases more : 8 < con.fb.width
  · have next := pixels 8 (cell.2 + 15) 0 more (by omega) (by omega) (by omega)
    rw [three] at next ⊢
    exact next
  · have tight : con.fb.pitch = 24 := by omega
    rw [tight] at behind pixels ⊢
    by_cases last : cell.2 + 16 = con.fb.height
    · exact behind _ (by omega)
    · have next := pixels 0 (cell.2 + 16) 0 (by omega) (by omega) (by omega) (by omega)
      rw [show (cell.2 + 15) * 24 + 24 = (cell.2 + 16) * 24 + 0 * con.fb.bpp + 0 by omega]
      exact next

theorem scrollInside (roomy : con.fb.Roomy) : con.ScrollInside overflow := by
  have less : 16 * con.fb.pitch ≤ con.fb.height * con.fb.pitch := Nat.mul_le_mul_right _ roomy.high
  have run : ∀ mem con', ({ con with mem := mem } : Console).scrollUp overflow = some con' → con'.mem =
      clear (moveDown mem (16 * con.fb.pitch) (con.fb.height * con.fb.pitch - 16 * con.fb.pitch))
        (con.fb.height * con.fb.pitch - 16 * con.fb.pitch) (16 * con.fb.pitch) := by
    intro mem con' run
    have scrolled : (con.onScreen mem con.position).scrollUp overflow = _ := scrollUp_mem
    rw [con.fb.scrollMem_eq overflow roomy, Option.map_some] at scrolled
    cases scrolled.symm.trans run
    rfl
  intro mem con' done
  rw [run mem con' done]
  refine ⟨fun x behind => ?_, fun other other' same done' x inside => ?_⟩
  · rw [clear, if_neg (by omega), moveDown, if_neg (by omega)]
  · rw [run other other' done']
    unfold clear moveDown
    split
    · rfl
    · rw [if_pos (by omega), if_pos (by omega)]
      exact same _ (by omega)

theorem callInside_of_own (packed : con.fb.Packed) (holds : con.fb.Holds con.position) (known : c < 128)
    (own : c = 10 ∨ con.fb.bpp = 4 ∨ con.fb.width = 8 ∧ 24 < con.fb.pitch) : con.CallInside overflow c := by
  have prints := (con.fb.prints_iff holds packed.toRoomy packed.positive packed.pitch).mpr fun _ => known
  obtain ⟨left, above⟩ := packed.toRoomy.cell con.position
  intro m moved
  rw [con.fb.move_eq overflow holds packed.toRoomy (.inr prints.right)] at moved
  cases moved
  refine ⟨fun _ => scrollInside packed.toRoomy, fun cell drawn line short i narrow => ?_⟩
  dsimp only at drawn
  split at drawn
  · cases drawn
  · rename_i newline
    cases drawn
    refine pixelInside packed left above ((own.resolve_left newline).imp_right fun narrow => ?_) known short narrow
    omega

theorem not_callInside (packed : con.fb.Packed) (holds : con.fb.Holds con.position) (known : c < 128) (newline : c ≠ 10)
    (edge : con.position.1 = 0) (three : con.fb.bpp = 3) (spills : ¬(con.fb.width = 8 ∧ 24 < con.fb.pitch)) :
    ¬con.CallInside overflow c := by
  have prints := (con.fb.prints_iff holds packed.toRoomy packed.positive packed.pitch).mpr fun _ => known
  have wide := packed.wide
  have cell : con.fb.cellOf con.position = (0, con.fb.rowOf con.position.2) := by
    rw [Framebuffer.cellOf, if_neg (by omega), edge]
  intro inside
  have pixels := (inside _ (con.fb.move_eq overflow holds packed.toRoomy (.inr prints.right))).2 _ (if_neg newline)
  rw [cell] at pixels
  exact not_pixelInside packed rfl (packed.toRoomy.row con.position.2) three spills known
    (pixels 15 (by decide) 7 (by decide))

end

theorem handedAll_lt (state : ParseState) {s : List UInt8} (ascii : ∀ c ∈ s, c.toNat < 128) :
    ∀ h ∈ state.handedAll s, h < 128 := by
  induction s generalizing state with
  | nil => exact fun h none => absurd none List.not_mem_nil
  | cons c s ih =>
    intro h member
    rcases List.mem_append.mp member with here | later
    · exact handed_lt state (ascii c (List.mem_cons_self ..)) h here
    · exact ih (state.next c) (fun c later => ascii c (List.mem_cons_of_mem _ later)) h later

theorem mem_of_readable (overflow : Overflow) {state : ParseState} {n : Nat} {s : List UInt8} {c : UInt8}
    (member : c ∈ readable overflow state n s) : c ∈ s := by
  induction s generalizing state n with
  | nil => exact member
  | cons d s ih =>
    rw [readable] at member
    split at member
    · split at member
      · exact List.mem_cons.mpr ((List.mem_cons.mp member).imp_right ih)
      · exact absurd member List.not_mem_nil
    · exact List.mem_cons.mpr ((List.mem_cons.mp member).imp_right ih)

section
variable (overflow : Overflow) {fb : Framebuffer} (packed : fb.Packed) (mem : Mem) {s : List UInt8}
  (ascii : ∀ c ∈ s, c.toNat < 128)
include packed ascii

theorem init_calls : ((init fb mem).calls overflow s).map (fun call => (call.1, call.2.fb, call.2.position)) =
    (fb.sites (0, 0) (strip (readable overflow .normal 0 s))).map (fun site => (site.1, fb, site.2)) := by
  have sized : (init fb mem).Sized := ⟨rfl, fun inside => absurd inside not_csi_normal⟩
  rw [← ParseState.handedAll_normal]
  exact calls_sites packed ⟨Nat.zero_le _, Nat.zero_le _⟩ sized ascii

/-- Each call while a text is printed on a new console is for one of its
characters, at a position that the framebuffer holds. -/
theorem init_calls_hold {call : Nat × Console} (member : call ∈ (init fb mem).calls overflow s) :
    call.2.fb = fb ∧ fb.Holds call.2.position ∧ call.1 < 128 ∧ call.1 ∈ strip (readable overflow .normal 0 s) := by
  have known : ∀ h ∈ ParseState.normal.handedAll (readable overflow .normal 0 s), h < 128 :=
    handedAll_lt .normal fun c inside => ascii c (mem_of_readable overflow inside)
  have image := List.mem_map_of_mem (f := fun call : Nat × Console => (call.1, call.2.fb, call.2.position)) member
  rw [init_calls overflow packed mem ascii] at image
  obtain ⟨site, there, same⟩ := List.mem_map.mp image
  obtain ⟨holds, printed⟩ := Framebuffer.sites_holds ⟨Nat.zero_le _, Nat.zero_le _⟩ packed.toRoomy site there
  obtain ⟨char, rest⟩ := Prod.mk.inj same
  obtain ⟨screen, position⟩ := Prod.mk.inj rest
  rw [← ParseState.handedAll_normal] at printed ⊢
  rw [← char, ← position]
  exact ⟨screen.symm, holds, known _ printed, printed⟩

/-- The first character that is no newline is printed at the left edge. -/
theorem init_calls_first {c : Nat} (member : c ∈ strip (readable overflow .normal 0 s)) (visible : c ≠ 10) :
    ∃ call ∈ (init fb mem).calls overflow s, call.1 ≠ 10 ∧ call.2.position.1 = 0 := by
  obtain ⟨site, there, newline, edge⟩ : ∃ site ∈ fb.sites (0, 0) _, site.1 ≠ 10 ∧ site.2.1 = 0 :=
    Framebuffer.sites_first rfl member visible
  have image := List.mem_map_of_mem (f := fun site => (site.1, fb, site.2)) there
  rw [← init_calls overflow packed mem ascii] at image
  obtain ⟨call, inside, same⟩ := List.mem_map.mp image
  obtain ⟨char, rest⟩ := Prod.mk.inj same
  obtain ⟨_, position⟩ := Prod.mk.inj rest
  refine ⟨call, inside, ?_, ?_⟩
  · rw [char]
    exact newline
  · rw [position]
    exact edge

/-- Drawing stays inside the framebuffer and inside of each glyph if and only if
pixels have four bytes, or a line is one glyph with a byte behind it, or nothing
but newlines is printed. -/
theorem drawing_inside_iff :
    (∀ call ∈ (init fb mem).calls overflow s, call.2.CallInside overflow call.1) ↔
      fb.bpp = 4 ∨ (fb.width = 8 ∧ 24 < fb.pitch) ∨ ∀ c ∈ strip (readable overflow .normal 0 s), c = 10 := by
  constructor
  · intro inside
    by_contra spills
    obtain ⟨other, wider, c, member, visible⟩ : fb.bpp ≠ 4 ∧ ¬(fb.width = 8 ∧ 24 < fb.pitch) ∧
        ∃ c ∈ strip (readable overflow .normal 0 s), c ≠ 10 := by
      simpa only [not_or, not_forall, exists_prop] using spills
    obtain ⟨⟨d, con⟩, call, newline, edge⟩ := init_calls_first overflow packed mem ascii member visible
    obtain ⟨rfl, holds, known, _⟩ := init_calls_hold overflow packed mem ascii call
    exact not_callInside packed holds known newline edge (packed.bpp.resolve_right other) wider (inside _ call)
  · rintro own ⟨d, con⟩ call
    obtain ⟨rfl, holds, known, printed⟩ := init_calls_hold overflow packed mem ascii call
    refine callInside_of_own packed holds known ?_
    rcases own with four | narrow | newlines
    · exact .inr (.inl four)
    · exact .inr (.inr narrow)
    · exact .inl (newlines _ printed)

end

/-- A framebuffer of one glyph, with three bytes for a pixel and none behind a line. -/
def tightFramebuffer : Framebuffer := ⟨8, 16, 24, 3, by decide, by decide⟩

theorem drawing_inside_small : smallFramebuffer.Packed ∧ smallFramebuffer.bpp = 4 ∧
    ∀ call ∈ (init smallFramebuffer fun _ => 0).calls .panics [0x61, 0x0a, 0x62], call.2.CallInside .panics call.1 := by
  have packed : smallFramebuffer.Packed := ⟨smallFramebuffer_roomy, .inr rfl, by decide⟩
  exact ⟨packed, rfl, (drawing_inside_iff .panics packed _ (by simp)).mpr (.inl rfl)⟩

/-- An `A` on the framebuffer of one glyph clears the byte behind it. -/
theorem drawing_outside_tight : tightFramebuffer.Packed ∧
    ((init tightFramebuffer fun _ => 1).printString .panics [0x41]).map (fun con => con.mem (16 * 24)) = some 0 ∧
      ¬∀ call ∈ (init tightFramebuffer fun _ => 1).calls .panics [0x41], call.2.CallInside .panics call.1 := by
  have packed : tightFramebuffer.Packed := ⟨⟨by decide, by decide⟩, .inl rfl, by decide⟩
  have ascii : ∀ c ∈ [(0x41 : UInt8)], c.toNat < 128 := by simp
  have text : strip (readable .panics .normal 0 [0x41]) = [0x41] := by
    simp [readable, ParseState.Csi, strip]
  refine ⟨packed, by decide +kernel, fun inside => ?_⟩
  obtain ⟨⟨d, con⟩, call, newline, edge⟩ := init_calls_first .panics packed (fun _ => 1) ascii
    (text ▸ List.mem_singleton_self 0x41) (by decide)
  obtain ⟨screen, holds, known, _⟩ := init_calls_hold .panics packed _ ascii call
  dsimp only at *
  exact not_callInside (screen ▸ packed) (screen ▸ holds) known newline edge (screen ▸ rfl) (screen ▸ by decide)
    (inside _ call)

end Console

end ProkaKernel

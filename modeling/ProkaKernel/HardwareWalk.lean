import ProkaKernel.Paging

namespace ProkaKernel

/-- The entries that the processor passes on its way to a page. A huge page
ends the way early; at level 4 there are none. -/
def hwWalk (m : Mem) : Nat → List (Fin 512) → Option (List Nat)
  | _, [] => some []
  | t, i :: rest =>
    if m.entry t i % 2 = 0 then none
    else if m.entry t i / 128 % 2 = 1 ∧ rest ≠ [] then if rest.length ≤ 2 then some [m.entry t i] else none
    else (hwWalk m (m.entry t i / 4096 % 2 ^ 40) rest).map (m.entry t i :: ·)

/-- The physical address behind `addr`, when a walk over `levels` levels has
passed these entries. -/
def physAddr (levels : Nat) (entries : List Nat) (addr : Nat) : Nat :=
  let size := 4096 * 512 ^ (levels - entries.length)
  entries.getLastD 0 % 2 ^ 52 / size * size + addr % size

/-- No page is smaller than 4096 bytes. -/
theorem physAddr_offset (levels : Nat) (entries : List Nat) (addr : Nat) :
    physAddr levels entries addr % 4096 = addr % 4096 := by
  unfold physAddr
  have pages : 4096 ∣ 4096 * 512 ^ (levels - entries.length) := Nat.dvd_mul_right _ _
  rw [Nat.add_mod, Nat.mod_eq_zero_of_dvd (pages.trans (Nat.dvd_mul_left _ _)), Nat.zero_add, Nat.mod_mod,
    Nat.mod_mod_of_dvd _ pages]

/-- Every level allows to write. -/
def Writable (entries : List Nat) : Prop := ∀ e ∈ entries, e / 2 % 2 = 1

/-- The bits of an entry with flags in its lowest twelve bits. -/
theorem pte_bits {frame flags : Nat} (inRam : frame < 2 ^ 40) (small : flags < 4096) :
    pte frame flags % 2 = flags % 2 ∧ pte frame flags / 2 % 2 = flags / 2 % 2 ∧
      pte frame flags / 128 % 2 = flags / 128 % 2 ∧ pte frame flags / 4096 % 2 ^ 40 = frame := by
  unfold pte
  omega

section
variable {m : Mem} {t frame flags e : Nat} {i j : Fin 512} {rest : List (Fin 512)}

theorem hwWalk_absent (entry : m.entry t i = 0) : hwWalk m t (i :: rest) = none := by
  unfold hwWalk
  rw [entry]
  rfl

/-- A link to a table, or a page of 4 KiB. -/
theorem hwWalk_link (entry : m.entry t i = pte frame flags) (inRam : frame < 2 ^ 40) (small : flags < 128)
    (present : flags % 2 = 1) : hwWalk m t (i :: rest) = (hwWalk m frame rest).map (pte frame flags :: ·) := by
  obtain ⟨bit, _, huge, next⟩ := pte_bits inRam (Nat.lt_trans small (by decide : 128 < 4096))
  rw [hwWalk, entry, bit, huge, next, if_neg (by omega), if_neg fun both => by omega]

/-- A page of 2 MiB. -/
theorem hwWalk_huge (entry : m.entry t i = e) (present : e % 2 = 1) (huge : e / 128 % 2 = 1) :
    hwWalk m t [i, j] = some [e] := by
  rw [hwWalk, entry, if_neg (by omega), if_pos ⟨huge, List.cons_ne_nil _ _⟩]
  rfl

end

section
variable {m : Mem} {t addr : Nat} {i : Fin 512} {rest : List (Fin 512)} {entries : List Nat}

/-- The first step of the processor: the entry is present, and it is the leaf
or the walk goes on below it. -/
theorem hwWalk_cons (run : hwWalk m t (i :: rest) = some entries) :
    m.entry t i % 2 = 1 ∧ ((m.entry t i / 128 % 2 = 1 ∧ rest ≠ [] ∧ entries = [m.entry t i]) ∨
      ((m.entry t i / 128 % 2 = 0 ∨ rest = []) ∧
        ∃ below, hwWalk m (m.entry t i / 4096 % 2 ^ 40) rest = some below ∧ entries = m.entry t i :: below)) := by
  unfold hwWalk at run
  split at run
  · cases run
  · rename_i absent
    refine ⟨by omega, ?_⟩
    split at run
    · rename_i huge
      split at run
      · exact Or.inl ⟨huge.1, huge.2, (Option.some.inj run).symm⟩
      · cases run
    · rename_i table
      obtain ⟨below, inner, same⟩ := Option.map_eq_some_iff.mp run
      refine Or.inr ⟨?_, below, inner, same.symm⟩
      by_cases last : rest = []
      · exact Or.inr last
      · have small := not_and'.mp table last
        exact Or.inl (by omega)

theorem pteFrame_table {e : Nat} (present : e % 2 = 1) (single : e / 128 % 2 = 0) :
    pteFrame e = some (e / 4096 % 2 ^ 40) :=
  if_pos ⟨present, single⟩

/-- The leaf of a walk, and the table it is in. -/
theorem hwWalk_leaf {r : Nat} {p path : List (Fin 512)} (nonempty : path ≠ []) (reached : tableWalk m r p = some t)
    (run : hwWalk m t path = some entries) :
    ∃ q i rest u, path = q ++ i :: rest ∧ tableWalk m r (p ++ q) = some u ∧ entries.getLastD 0 = m.entry u i ∧
      entries.length = q.length + 1 ∧ m.entry u i % 2 = 1 ∧ (rest = [] ∨ m.entry u i / 128 % 2 = 1) := by
  induction path generalizing p t entries with
  | nil => exact absurd rfl nonempty
  | cons i rest ih =>
    have here : tableWalk m r (p ++ []) = some t := by
      rw [List.append_nil]
      exact reached
    obtain ⟨present, ⟨huge, _, rfl⟩ | ⟨table, below, inner, rfl⟩⟩ := hwWalk_cons run
    · exact ⟨[], i, rest, t, rfl, here, rfl, rfl, present, Or.inr huge⟩
    · by_cases last : rest = []
      · subst last
        cases inner
        exact ⟨[], i, [], t, rfl, here, rfl, rfl, present, Or.inl rfl⟩
      · have single := table.resolve_right last
        have next : tableWalk m r (p ++ [i]) = some (m.entry t i / 4096 % 2 ^ 40) := by
          rw [tableWalk, Forest.walk_through reached, pteFrame_table present single]
          rfl
        obtain ⟨q, j, tail, u, rfl, reached', leaf, length, present', kind⟩ := ih last next inner
        refine ⟨i :: q, j, tail, u, rfl, ?_, ?_, ?_, present', kind⟩
        · rw [List.append_cons]
          exact reached'
        · cases below with
          | nil => cases length
          | cons e es =>
            rw [List.getLastD_cons] at leaf
            rw [List.getLastD_cons, List.getLastD_cons]
            exact leaf
        · rw [List.length_cons, length, List.length_cons]

/-- The same for a page of the lower half. -/
theorem hwWalk_low {root page : Nat} (low : (Fin.ofNat 512 (page / 512 ^ 3)).val < 256)
    (run : hwWalk m root (pagePath page) = some entries) :
    ∃ q i rest u, pagePath page = q ++ i :: rest ∧ LowPath (q ++ [i]) ∧ tableWalk m root q = some u ∧
      entries.getLastD 0 = m.entry u i ∧ entries.length = q.length + 1 ∧ m.entry u i % 2 = 1 ∧
      (rest = [] ∨ m.entry u i / 128 % 2 = 1) := by
  have nonempty : pagePath page ≠ [] := List.cons_ne_nil _ _
  obtain ⟨q, i, rest, u, path, reached, leaf⟩ :=
    hwWalk_leaf nonempty (show tableWalk m root [] = some root from rfl) run
  have lowPath : LowPath (pagePath page) := by
    refine ⟨Nat.le_refl _, fun j first => ?_⟩
    cases Option.some.inj first
    exact low
  rw [path, List.append_cons] at lowPath
  exact ⟨q, i, rest, u, path, lowPath_closed _ rest lowPath, reached, leaf⟩

/-- A page of 4 KiB. -/
theorem physAddr_page {levels : Nat} (length : entries.length = levels) :
    physAddr levels entries addr = entries.getLastD 0 / 4096 % 2 ^ 40 * 4096 + addr % 4096 := by
  unfold physAddr
  rw [length, Nat.sub_self]
  dsimp only
  omega

/-- A page of 2 MiB. -/
theorem physAddr_huge {levels : Nat} (length : entries.length + 1 = levels) :
    physAddr levels entries addr = entries.getLastD 0 / 2 ^ 21 % 2 ^ 31 * 2 ^ 21 + addr % 2 ^ 21 := by
  unfold physAddr
  rw [← length, Nat.add_sub_cancel_left]
  dsimp only
  omega

end

end ProkaKernel

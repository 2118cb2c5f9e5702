import Mathlib.Data.Fintype.Basic
import Mathlib.Tactic.FinCases
import ProkaKernel.ConfigAccess
import ProkaKernel.Console

namespace ProkaKernel

/-- `str::is_char_boundary`: the byte does not continue a character of UTF-8. -/
def isCharBoundary (s : List UInt8) (i : Nat) : Bool :=
  i == 0 || match s[i]? with
    | some b => b < 0x80 || 0xc0 ≤ b
    | none => i == s.length

/-- The slice of a string; anything but whole characters is a panic. -/
def strSlice (s : List UInt8) (start stop : Nat) : Option (List UInt8) :=
  if start ≤ stop ∧ isCharBoundary s start = true ∧ isCharBoundary s stop = true then
    some ((s.drop start).take (stop - start))
  else none

/-- `char::to_digit` with radix 16. -/
def hexDigit (b : UInt8) : Option Nat :=
  if 0x30 ≤ b ∧ b ≤ 0x39 then some (b.toNat - 0x30)
  else if 0x41 ≤ b ∧ b ≤ 0x46 then some (b.toNat - 0x41 + 10)
  else if 0x61 ≤ b ∧ b ≤ 0x66 then some (b.toNat - 0x61 + 10)
  else none

/-- One more digit of a number that is stored in a byte. -/
def addHexDigit (value : Nat) (b : UInt8) : Option Nat := do
  let digit ← hexDigit b
  if value * 16 + digit < 256 then pure (value * 16 + digit) else none

/-- `u8::from_str_radix` with radix 16. A sign is passed over; of a negative
number it is no digit. -/
def fromStrRadix (s : List UInt8) : Option Nat :=
  match s with
  | [] => none
  | [0x2b] => none
  | 0x2b :: digits => digits.foldlM addHexDigit 0
  | digits => digits.foldlM addHexDigit 0

namespace Color

/-- One component of a colour. -/
def hexComponent (hex : List UInt8) (start stop : Nat) : Option UInt8 :=
  (strSlice hex start stop).map fun s => UInt8.ofNat ((fromStrRadix s).getD 255)

def withAlpha (r g b a : UInt8) : Color := ⟨r, g, b, a⟩

/-- The colour of a text; `none` is a panic. -/
def fromHex (hex : List UInt8) : Option Color := do
  let hex := hex.dropWhile (· == 0x23)
  let r ← hexComponent hex 0 2
  let g ← hexComponent hex 2 4
  let b ← hexComponent hex 4 6
  if hex.length = 8 then do
    let a ← hexComponent hex 6 8
    pure (withAlpha r g b a)
  else pure (new r g b)

def component (color : Color) : Fin 4 → UInt8
  | 0 => color.r
  | 1 => color.g
  | 2 => color.b
  | 3 => color.a

end Color

/-- The bytes of a text in UTF-8. -/
def utf8 (s : List Char) : List UInt8 := s.flatMap String.utf8EncodeChar

/-- The value of a character that is a hexadecimal digit. -/
def charDigit (c : Char) : Option Nat := if c.toNat ≤ 127 then hexDigit (UInt8.ofNat c.toNat) else none

/-- The value of the two characters of a component, if they are digits. -/
def hexPair (h : List Char) (i : Nat) : Option Nat := do
  let high ← h[2 * i]?.bind charDigit
  let low ← h[2 * i + 1]?.bind charDigit
  pure (high * 16 + low)

/-- The colour that a text after its leading `#` stands for: all components of
six or eight digits, and 255 for a component that has no two digits. -/
structure MeansColor (h : List Char) (color : Color) : Prop where
  digits : h.length = 6 ∨ h.length = 8 → (∀ c ∈ h, charDigit c ≠ none) →
    ∀ i value, hexPair h i.val = some value → color.component i = UInt8.ofNat value
  missing : ∀ i : Fin 4, hexPair h i.val = none → color.component i = 255

/-- The value of the two bytes that are read for a component, if they are digits. -/
def bytePair (h : List UInt8) (i : Nat) : Option Nat := do
  let high ← h[2 * i]?.bind hexDigit
  let low ← h[2 * i + 1]?.bind hexDigit
  pure (high * 16 + low)

section
variable {s : List Char} {c : Char}

theorem utf8_cons (c : Char) (s : List Char) : utf8 (c :: s) = String.utf8EncodeChar c ++ utf8 s := rfl

theorem utf8EncodeChar_ascii (ascii : c.toNat ≤ 127) : String.utf8EncodeChar c = [UInt8.ofNat c.toNat] := if_pos ascii

theorem utf8EncodeChar_other (other : c ≠ '#') : ∃ b rest, String.utf8EncodeChar c = b :: rest ∧ b ≠ 0x23 := by
  have differs {n : Nat} (small : n < 256) (apart : n ≠ 0x23) : UInt8.ofNat n ≠ 0x23 := fun same => by
    have value := congrArg UInt8.toNat same
    rw [UInt8.toNat_ofNat', Nat.mod_eq_of_lt small] at value
    exact apart value
  unfold String.utf8EncodeChar
  dsimp only
  split
  · rename_i ascii
    refine ⟨_, _, rfl, differs (by omega) fun same => other ?_⟩
    exact Char.toNat_inj.mp same
  · split
    · exact ⟨_, _, rfl, differs (by omega) (by omega)⟩
    · split
      · exact ⟨_, _, rfl, differs (by omega) (by omega)⟩
      · exact ⟨_, _, rfl, differs (by omega) (by omega)⟩

/-- The leading `#` can be taken off before or after the encoding. -/
theorem utf8_dropWhile (s : List Char) : (utf8 s).dropWhile (· == 0x23) = utf8 (s.dropWhile (· == '#')) := by
  induction s with
  | nil => rfl
  | cons c s ih =>
    by_cases hash : c = '#'
    · subst hash
      exact ih
    · obtain ⟨b, rest, bytes, apart⟩ := utf8EncodeChar_other hash
      rw [List.dropWhile_cons_of_neg (by simpa using hash), utf8_cons, bytes, List.cons_append,
        List.dropWhile_cons_of_neg (by simpa using apart)]

theorem charDigit_ascii (digit : charDigit c ≠ none) : c.toNat ≤ 127 := by
  by_contra large
  exact digit (if_neg large)

/-- A text of digits has a byte for every character. -/
theorem utf8_digits (digits : ∀ c ∈ s, charDigit c ≠ none) : utf8 s = s.map fun c => UInt8.ofNat c.toNat := by
  induction s with
  | nil => rfl
  | cons c s ih =>
    rw [utf8_cons, utf8EncodeChar_ascii (charDigit_ascii (digits c (List.mem_cons_self ..))),
      ih fun d member => digits d (List.mem_cons_of_mem c member)]
    rfl

theorem bytePair_digits (digits : ∀ c ∈ s, charDigit c ≠ none) (i : Nat) : bytePair (utf8 s) i = hexPair s i := by
  have same (j : Nat) : (utf8 s)[j]?.bind hexDigit = s[j]?.bind charDigit := by
    rw [utf8_digits digits, List.getElem?_map]
    cases found : s[j]? with
    | none => rfl
    | some c =>
      have ascii := charDigit_ascii (digits c (List.mem_of_getElem? found))
      exact (if_pos ascii).symm
  unfold bytePair hexPair
  rw [same, same]

end

section
variable {h : List UInt8} {x y : UInt8}

theorem hexDigit_lt {d : Nat} (digit : hexDigit x = some d) : d < 16 := by
  unfold hexDigit at digit
  split at digit
  · rename_i range
    have upper := UInt8.le_iff_toNat_le.mp range.2
    cases digit
    change x.toNat ≤ 0x39 at upper
    omega
  · split at digit
    · rename_i range
      have upper := UInt8.le_iff_toNat_le.mp range.2
      cases digit
      change x.toNat ≤ 0x46 at upper
      omega
    · split at digit
      · rename_i range
        have upper := UInt8.le_iff_toNat_le.mp range.2
        cases digit
        change x.toNat ≤ 0x66 at upper
        omega
      · cases digit

/-- A byte always holds two digits. -/
theorem addHexDigit_eq {value : Nat} (small : value < 16) : addHexDigit value x = (hexDigit x).map (value * 16 + ·) := by
  unfold addHexDigit
  cases digit : hexDigit x with
  | none => rfl
  | some d =>
    have bound := hexDigit_lt digit
    simp only [Option.bind_eq_bind, Option.bind_some, Option.map_some]
    exact if_pos (by omega)

theorem foldlM_digit (x : UInt8) : [x].foldlM addHexDigit 0 = hexDigit x := by
  rw [List.foldlM_cons, addHexDigit_eq (by decide)]
  cases hexDigit x <;> simp

theorem foldlM_digits (x y : UInt8) :
    [x, y].foldlM addHexDigit 0 = (hexDigit x).bind fun high => (hexDigit y).map (high * 16 + ·) := by
  rw [List.foldlM_cons, addHexDigit_eq (by decide)]
  cases digit : hexDigit x with
  | none => rfl
  | some high =>
    have bound := hexDigit_lt digit
    simp only [Option.map_some, Nat.zero_mul, Nat.zero_add, Option.bind_eq_bind, Option.bind_some, List.foldlM_cons]
    rw [addHexDigit_eq bound]
    cases hexDigit y <;> rfl

/-- Two characters are parsed as two digits, or as a sign and a digit. -/
theorem fromStrRadix_pair (x y : UInt8) : fromStrRadix [x, y] =
    if x = 0x2b then hexDigit y else (hexDigit x).bind fun high => (hexDigit y).map (high * 16 + ·) := by
  split
  · rename_i plus
    rw [plus]
    exact foldlM_digit y
  · rename_i other
    rw [← foldlM_digits]
    unfold fromStrRadix
    split
    · rename_i same
      cases same
    · rename_i same
      cases same
    · rename_i same
      cases same
      exact absurd rfl other
    · rfl

theorem isCharBoundary_le {i : Nat} (boundary : isCharBoundary h i = true) : i ≤ h.length := by
  unfold isCharBoundary at boundary
  cases at_i : h[i]? with
  | none =>
    simp only [at_i, Bool.or_eq_true, beq_iff_eq] at boundary
    omega
  | some b =>
    obtain ⟨below, _⟩ := List.getElem?_eq_some_iff.mp at_i
    omega

theorem isCharBoundary_length (h : List UInt8) : isCharBoundary h h.length = true := by
  simp [isCharBoundary]

theorem bytePair_eq {i : Nat} (atX : h[2 * i]? = some x) (atY : h[2 * i + 1]? = some y) :
    bytePair h i = (hexDigit x).bind fun high => (hexDigit y).map (high * 16 + ·) := by
  unfold bytePair
  simp only [atX, atY, Option.bind_some, Option.bind_eq_bind]
  cases hexDigit x with
  | none => rfl
  | some high => cases hexDigit y <;> rfl

end

/-- A pair that the radix parser takes for a sign and a digit. -/
def Signed (h : List UInt8) (i : Nat) : Prop := h[2 * i]? = some 0x2b ∧ h[2 * i + 1]?.bind hexDigit ≠ none

namespace Color
variable {h : List UInt8}

theorem hexComponent_isSome {start stop : Nat} : (hexComponent h start stop).isSome = true ↔
    start ≤ stop ∧ isCharBoundary h start = true ∧ isCharBoundary h stop = true := by
  unfold hexComponent strSlice
  split <;> simp [*]

theorem hexComponent_pair {i : Nat} {x y : UInt8} (first : isCharBoundary h (2 * i) = true)
    (last : isCharBoundary h (2 * i + 2) = true) (atX : h[2 * i]? = some x) (atY : h[2 * i + 1]? = some y) :
    hexComponent h (2 * i) (2 * i + 2) = some (UInt8.ofNat ((fromStrRadix [x, y]).getD 255)) := by
  obtain ⟨firstIn, getX⟩ := List.getElem?_eq_some_iff.mp atX
  obtain ⟨secondIn, getY⟩ := List.getElem?_eq_some_iff.mp atY
  have both : (h.drop (2 * i)).take 2 = [x, y] := by
    rw [List.drop_eq_getElem_cons firstIn, List.drop_eq_getElem_cons secondIn, getX, getY]
    rfl
  unfold hexComponent strSlice
  rw [if_pos ⟨by omega, first, last⟩, Nat.add_sub_cancel_left, both]
  rfl

/-- A component is the value of its pair, or 255, unless the pair has a sign:
then it is neither. -/
theorem hexComponent_means {i : Nat} {value : UInt8} (run : hexComponent h (2 * i) (2 * i + 2) = some value) :
    (¬Signed h i → value = UInt8.ofNat ((bytePair h i).getD 255)) ∧ (Signed h i → value ≠ 255) := by
  obtain ⟨_, first, last⟩ := hexComponent_isSome.mp (Option.isSome_of_eq_some run)
  have long := isCharBoundary_le last
  have atX : h[2 * i]? = some h[2 * i] := List.getElem?_eq_getElem (by omega)
  have atY : h[2 * i + 1]? = some h[2 * i + 1] := List.getElem?_eq_getElem (by omega)
  rw [hexComponent_pair first last atX atY, fromStrRadix_pair] at run
  unfold Signed
  rw [bytePair_eq atX atY, atX, atY, Option.some.injEq, Option.bind_some]
  cases run
  split
  · rename_i plus
    have noDigit : hexDigit 0x2b = none := by decide
    rw [plus, noDigit]
    cases digit : hexDigit h[2 * i + 1] with
    | none => simp
    | some d =>
      have bound := hexDigit_lt digit
      refine ⟨fun unsigned => absurd ⟨rfl, Option.some_ne_none d⟩ unsigned, fun _ same => ?_⟩
      have value := congrArg UInt8.toNat same
      simp only [Option.getD_some, UInt8.toNat_ofNat'] at value
      change d % 256 = 255 at value
      omega
  · rename_i other
    exact ⟨fun _ => rfl, fun signed => absurd signed.1 other⟩

/-- The text has a character boundary at each slice. -/
def Whole (h : List UInt8) : Prop :=
  isCharBoundary h 2 = true ∧ isCharBoundary h 4 = true ∧ isCharBoundary h 6 = true

theorem fromHex_broken {hex : List UInt8} (broken : ¬Whole (hex.dropWhile (· == 0x23))) : fromHex hex = none := by
  unfold fromHex
  revert broken
  generalize hex.dropWhile (· == 0x23) = h
  intro broken
  cases red : hexComponent h 0 2 with
  | none => simp [red]
  | some r =>
    cases green : hexComponent h 2 4 with
    | none => simp [red, green]
    | some g =>
      cases blue : hexComponent h 4 6 with
      | none => simp [red, green, blue]
      | some b =>
        have two := hexComponent_isSome.mp (Option.isSome_of_eq_some green)
        have four := hexComponent_isSome.mp (Option.isSome_of_eq_some blue)
        exact absurd ⟨two.2.1, four.2.1, four.2.2⟩ broken

/-- All that the parsing of a colour can do: it panics in the middle of a
character, or it slices each of the pairs it needs. -/
theorem fromHex_cases (hex : List UInt8) :
    ¬Whole (hex.dropWhile (· == 0x23)) ∧ fromHex hex = none ∨
    Whole (hex.dropWhile (· == 0x23)) ∧ ∃ color, fromHex hex = some color ∧
      (∀ i : Fin 4, i.val < 3 ∨ (hex.dropWhile (· == 0x23)).length = 8 →
        hexComponent (hex.dropWhile (· == 0x23)) (2 * i.val) (2 * i.val + 2) = some (color.component i)) ∧
      ((hex.dropWhile (· == 0x23)).length ≠ 8 → color.a = 255) := by
  by_cases whole : Whole (hex.dropWhile (· == 0x23))
  · refine .inr ⟨whole, ?_⟩
    unfold fromHex
    revert whole
    generalize hex.dropWhile (· == 0x23) = h
    rintro ⟨two, four, six⟩
    have zero : isCharBoundary h 0 = true := rfl
    obtain ⟨r, red⟩ := Option.isSome_iff_exists.mp (hexComponent_isSome.mpr ⟨by decide, zero, two⟩)
    obtain ⟨g, green⟩ := Option.isSome_iff_exists.mp (hexComponent_isSome.mpr ⟨by decide, two, four⟩)
    obtain ⟨b, blue⟩ := Option.isSome_iff_exists.mp (hexComponent_isSome.mpr ⟨by decide, four, six⟩)
    simp only [red, green, blue, Option.bind_eq_bind, Option.bind_some]
    by_cases eight : h.length = 8
    · have eighth : isCharBoundary h 8 = true := eight ▸ isCharBoundary_length h
      obtain ⟨a, alpha⟩ := Option.isSome_iff_exists.mp (hexComponent_isSome.mpr ⟨by decide, six, eighth⟩)
      rw [if_pos eight, alpha]
      refine ⟨⟨r, g, b, a⟩, rfl, fun i _ => ?_, fun other => absurd eight other⟩
      fin_cases i <;> assumption
    · rw [if_neg eight]
      refine ⟨⟨r, g, b, 255⟩, rfl, fun i used => ?_, fun _ => rfl⟩
      fin_cases i
      · exact red
      · exact green
      · exact blue
      · exact absurd used (by simp [eight])
  · exact .inl ⟨whole, fromHex_broken whole⟩

/-- The two bytes that are read for a component are a number other than 255 to the
radix parser: a sign and a digit, or two digits. -/
def Misread (h : List UInt8) (i : Nat) : Prop := Signed h i ∨ ∃ value, bytePair h i = some value ∧ value ≠ 255

theorem bytePair_lt {i value : Nat} (pair : bytePair h i = some value) : value < 256 := by
  obtain ⟨high, first, pair⟩ := Option.bind_eq_some_iff.mp pair
  obtain ⟨low, second, pair⟩ := Option.bind_eq_some_iff.mp pair
  obtain ⟨_, _, first⟩ := Option.bind_eq_some_iff.mp first
  obtain ⟨_, _, second⟩ := Option.bind_eq_some_iff.mp second
  cases pair
  have bounds := And.intro (hexDigit_lt first) (hexDigit_lt second)
  omega

/-- A component that is read is 255, unless its bytes are another number. -/
theorem hexComponent_255 {i : Nat} {value : UInt8} (run : hexComponent h (2 * i) (2 * i + 2) = some value) :
    value = 255 ↔ ¬Misread h i := by
  obtain ⟨unsigned, signed⟩ := hexComponent_means run
  unfold Misread
  by_cases sign : Signed h i
  · exact iff_of_false (signed sign) fun right => right (Or.inl sign)
  · rw [unsigned sign]
    cases pair : bytePair h i with
    | none => simp [sign]
    | some n =>
      have bound := bytePair_lt pair
      have number : UInt8.ofNat n = 255 ↔ n = 255 := by
        rw [← UInt8.toNat_inj, UInt8.toNat_ofNat', Nat.mod_eq_of_lt bound]
        rfl
      simp [sign, number]

/-- In a text of digits there is no sign. -/
theorem not_signed_of_digits {s : List Char} (digits : ∀ c ∈ s, charDigit c ≠ none) (i : Nat) : ¬Signed (utf8 s) i := by
  rintro ⟨sign, _⟩
  rw [utf8_digits digits, List.getElem?_map] at sign
  obtain ⟨c, found, byte⟩ := Option.map_eq_some_iff.mp sign
  have digit := digits c (List.mem_of_getElem? found)
  rw [charDigit, if_pos (charDigit_ascii digit), byte] at digit
  exact digit (by decide)

/-- A colour is parsed without a panic, and to what it means, just if the text
after its leading `#` has a character boundary at the bytes 2, 4 and 6, and no
component without two digits of its own is read from bytes that are a number. -/
theorem from_hex_means_iff (hex : List Char) :
    (∃ color, fromHex (utf8 hex) = some color ∧ MeansColor (hex.dropWhile (· == '#')) color) ↔
      Whole (utf8 (hex.dropWhile (· == '#'))) ∧
        ∀ i : Fin 4, i.val < 3 ∨ (utf8 (hex.dropWhile (· == '#'))).length = 8 →
          hexPair (hex.dropWhile (· == '#')) i.val = none → ¬Misread (utf8 (hex.dropWhile (· == '#'))) i.val := by
  have parses := fromHex_cases (utf8 hex)
  rw [utf8_dropWhile] at parses
  generalize hex.dropWhile (· == '#') = h at parses ⊢
  rcases parses with ⟨broken, run⟩ | ⟨whole, color, run, parts, alpha⟩
  · simp [run, broken]
  · constructor
    · rintro ⟨_, same, means⟩
      cases run.symm.trans same
      exact ⟨whole, fun i used noPair => (hexComponent_255 (parts i used)).mp (means.missing i noPair)⟩
    · rintro ⟨_, right⟩
      refine ⟨color, run, fun size digits i value pair => ?_, fun i noPair => ?_⟩
      · have length : (utf8 h).length = h.length := by rw [utf8_digits digits, List.length_map]
        have used : i.val < 3 ∨ (utf8 h).length = 8 := by
          rcases size with six | eight
          · refine .inl (Nat.lt_of_not_le fun last => ?_)
            have gone : h[2 * i.val]? = none := List.getElem?_eq_none (by omega)
            simp [hexPair, gone] at pair
          · exact .inr (length.trans eight)
        rw [(hexComponent_means (parts i used)).1 (not_signed_of_digits digits i), bytePair_digits digits, pair]
        rfl
      · by_cases used : i.val < 3 ∨ (utf8 h).length = 8
        · exact (hexComponent_255 (parts i used)).mpr (right i used noPair)
        · obtain ⟨last, other⟩ := not_or.mp used
          have third : i = 3 := by omega
          rw [third]
          exact alpha other

/-- The empty text is a panic, a sign is parsed as no digit would be, and behind two
characters of two bytes the digits of another component are read as blue. -/
theorem from_hex_not_exact :
    (¬∃ color, fromHex (utf8 []) = some color ∧ MeansColor [] color) ∧
      (¬∃ color, fromHex (utf8 ['+', 'f', '0', '0', '0', '0']) = some color ∧
        MeansColor ['+', 'f', '0', '0', '0', '0'] color) ∧
      ¬∃ color, fromHex (utf8 ['é', 'é', '1', '2']) = some color ∧ MeansColor ['é', 'é', '1', '2'] color := by
  refine ⟨?_, ?_, ?_⟩
  · rintro ⟨color, run, _⟩
    cases run
  · rintro ⟨color, run, means⟩
    have parsed : fromHex (utf8 ['+', 'f', '0', '0', '0', '0']) = some ⟨15, 0, 0, 255⟩ := by decide
    cases parsed.symm.trans run
    exact absurd (means.missing 0 (by decide)) (by decide)
  · rintro ⟨color, run, means⟩
    have parsed : fromHex (utf8 ['é', 'é', '1', '2']) = some ⟨255, 255, 0x12, 255⟩ := by decide
    cases parsed.symm.trans run
    exact absurd (means.missing 2 (by decide)) (by decide)

/-- `Color::from_u32`. -/
def fromU32 (color : UInt32) : Color :=
  let r := color >>> 24 &&& 0xff
  let g := color >>> 16 &&& 0xff
  let b := color >>> 8 &&& 0xff
  new r.toUInt8 g.toUInt8 b.toUInt8

/-- Without its alpha a colour is packed into the three lowest bytes. -/
theorem toU32_toNat (color : Color) :
    (color.toU32 false).toNat = color.r.toNat * 2 ^ 16 + color.g.toNat * 2 ^ 8 + color.b.toNat := by
  have r : color.r.toNat < 256 := color.r.toNat_lt
  have g : color.g.toNat < 256 := color.g.toNat_lt
  have b : color.b.toNat < 256 := color.b.toNat_lt
  have high : (color.r.toUInt32 <<< 16).toNat = color.r.toNat * 2 ^ 16 :=
    shiftLeft_toNat (by decide) (show color.r.toNat * 2 ^ 16 < 2 ^ 32 by omega)
  have middle : (color.g.toUInt32 <<< 8).toNat = color.g.toNat * 2 ^ 8 :=
    shiftLeft_toNat (by decide) (show color.g.toNat * 2 ^ 8 < 2 ^ 32 by omega)
  have low : color.b.toUInt32.toNat = color.b.toNat := rfl
  simp only [toU32, Bool.false_eq_true, if_false, UInt32.toNat_or, high, middle, low]
  rw [Nat.or_assoc, or_below (show color.b.toNat < 2 ^ 8 by omega),
    or_below (show color.g.toNat * 2 ^ 8 + color.b.toNat < 2 ^ 16 by omega), Nat.add_assoc]

/-- The component that `from_u32` takes from a place of the word. -/
theorem packed_byte {packed shift : UInt32} (small : shift.toNat < 32) :
    (packed >>> shift &&& 0xff).toUInt8.toNat = packed.toNat / 2 ^ shift.toNat % 256 := by
  rw [UInt32.toNat_toUInt8, UInt32.toNat_and, UInt32.toNat_shiftRight, Nat.mod_eq_of_lt small, Nat.shiftRight_eq_div_pow]
  rw [show (0xff : UInt32).toNat = 2 ^ 8 - 1 from rfl, Nat.and_two_pow_sub_one_eq_mod, Nat.mod_mod]

/-- `from_u32` reads each component one byte above the place to which `to_u32`
writes it: red becomes green, green becomes blue, and blue is lost. -/
theorem fromU32_toU32 (color : Color) : fromU32 (color.toU32 false) = new 0 color.r color.g := by
  have packed := color.toU32_toNat
  have r : color.r.toNat < 256 := color.r.toNat_lt
  have g : color.g.toNat < 256 := color.g.toNat_lt
  have b : color.b.toNat < 256 := color.b.toNat_lt
  have red : (color.toU32 false >>> 24 &&& 0xff).toUInt8 = 0 := by
    apply UInt8.toNat_inj.mp
    rw [packed_byte (by decide)]
    show (color.toU32 false).toNat / 2 ^ 24 % 256 = 0
    omega
  have green : (color.toU32 false >>> 16 &&& 0xff).toUInt8 = color.r := by
    apply UInt8.toNat_inj.mp
    rw [packed_byte (by decide)]
    show (color.toU32 false).toNat / 2 ^ 16 % 256 = color.r.toNat
    omega
  have blue : (color.toU32 false >>> 8 &&& 0xff).toUInt8 = color.g := by
    apply UInt8.toNat_inj.mp
    rw [packed_byte (by decide)]
    show (color.toU32 false).toNat / 2 ^ 8 % 256 = color.g.toNat
    omega
  rw [fromU32, red, green, blue]

/-- Packing what was unpacked loses the lowest byte of the word. -/
theorem toU32_fromU32 (color : Color) :
    ((fromU32 (color.toU32 false)).toU32 false).toNat = (color.toU32 false).toNat / 2 ^ 8 := by
  have b : color.b.toNat < 256 := color.b.toNat_lt
  rw [fromU32_toU32, toU32_toNat, toU32_toNat]
  show 0 * 2 ^ 16 + color.r.toNat * 2 ^ 8 + color.g.toNat = _
  omega

/-- Packing and unpacking are inverse to each other for black, and for no other
colour: they do not agree on where a component is. -/
theorem packed_round_trip_iff {color : Color} (full : color.a = 255) {packed : UInt32}
    (image : ∃ c : Color, c.toU32 false = packed) :
    (fromU32 (color.toU32 false) = color ↔ color = black) ∧ ((fromU32 packed).toU32 false = packed ↔ packed = 0) := by
  obtain ⟨c, rfl⟩ := image
  constructor
  · obtain ⟨r, g, b, a⟩ := color
    obtain rfl : a = 255 := full
    rw [fromU32_toU32]
    simp only [new, black, Color.mk.injEq, and_true]
    constructor
    · rintro ⟨rfl, rfl, rfl⟩
      exact ⟨rfl, rfl, rfl⟩
    · rintro ⟨rfl, rfl, rfl⟩
      exact ⟨rfl, rfl, rfl⟩
  · rw [← UInt32.toNat_inj, ← UInt32.toNat_inj, toU32_fromU32]
    show _ ↔ (c.toU32 false).toNat = 0
    omega

theorem packed_round_trip_black :
    (fromU32 (black.toU32 false) = black ↔ black = black) ∧ ((fromU32 0).toU32 false = 0 ↔ (0 : UInt32) = 0) :=
  packed_round_trip_iff rfl ⟨black, by decide⟩

/-- Red is unpacked as green, and packed again it is another word. -/
theorem packed_red_is_green :
    fromU32 (red.toU32 false) = green ∧ fromU32 (red.toU32 false) ≠ red ∧
      (fromU32 (red.toU32 false)).toU32 false ≠ red.toU32 false := by
  decide

end Color

end ProkaKernel

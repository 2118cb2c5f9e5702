import Mathlib.Tactic.IntervalCases
import ProkaKernel.ConsoleCursor

namespace ProkaKernel
open Console (isAsciiDigit)

namespace ParseState

/-- In the parameters of a control sequence. -/
def Csi (state : ParseState) : Prop := state = .escapeBracket ∨ state = .collectingParams

/-- The state after a character. -/
def next (state : ParseState) (c : UInt8) : ParseState :=
  match state with
  | .normal => if c = 0x1b then .escape else .normal
  | .escape => if c = 0x5b then .escapeBracket else .normal
  | _ => if isAsciiDigit c then .collectingParams else if c = 0x3b then .escapeBracket else .normal

/-- The characters that are handed to `print_normal_char`. -/
def handed (state : ParseState) (c : UInt8) : List Nat :=
  match state with
  | .normal => if c = 0x1b then [] else [c.toNat]
  | .escape => if c = 0x5b then [] else [0x1b, c.toNat]
  | _ => []

def handedAll : ParseState → List UInt8 → List Nat
  | _, [] => []
  | state, c :: s => state.handed c ++ handedAll (state.next c) s

end ParseState

/-- A byte of the parameters of a control sequence. -/
def isParam (c : UInt8) : Bool := isAsciiDigit c || c == 0x3b

/-- What comes after the parameters and the last byte of a control sequence. -/
def afterSequence (s : List UInt8) : List UInt8 := (s.dropWhile isParam).tail

theorem afterSequence_length (s : List UInt8) : (afterSequence s).length ≤ s.length := by
  have shorter := (List.dropWhile_suffix isParam (l := s)).length_le
  rw [afterSequence, List.length_tail]
  omega

/-- The text without its escape sequences: complete control sequences are left
out, and an escape that does not end. An escape before another byte than `[` is
kept, with that byte. -/
def strip (s : List UInt8) : List Nat :=
  match s with
  | [] => []
  | [c] => if c = 0x1b then [] else [c.toNat]
  | c :: d :: rest =>
    if c = 0x1b then
      if d = 0x5b then strip (afterSequence rest) else 0x1b :: d.toNat :: strip rest
    else c.toNat :: strip (d :: rest)
termination_by s.length
decreasing_by
  · have shorter := afterSequence_length rest
    simp only [List.length_cons]
    omega
  · simp only [List.length_cons]
    omega
  · simp only [List.length_cons]
    omega

namespace ParseState
variable {state : ParseState}

theorem Csi.next (csi : state.Csi) (c : UInt8) : state.next c =
    if isAsciiDigit c then .collectingParams else if c = 0x3b then .escapeBracket else .normal := by
  rcases csi with rfl | rfl <;> rfl

theorem Csi.handed (csi : state.Csi) (c : UInt8) : state.handed c = [] := by
  rcases csi with rfl | rfl <;> rfl

/-- The rest of a control sequence hands on nothing. -/
theorem Csi.handedAll (csi : state.Csi) (s : List UInt8) :
    state.handedAll s = ParseState.normal.handedAll (afterSequence s) := by
  induction s generalizing state with
  | nil => rfl
  | cons c s ih =>
    rw [ParseState.handedAll, csi.handed, List.nil_append, csi.next, afterSequence]
    by_cases digit : isAsciiDigit c = true
    · rw [if_pos digit, List.dropWhile_cons_of_pos (by simp [isParam, digit])]
      exact ih (.inr rfl)
    · rw [if_neg digit]
      by_cases semicolon : c = 0x3b
      · rw [if_pos semicolon, List.dropWhile_cons_of_pos (by simp [isParam, semicolon])]
        exact ih (.inl rfl)
      · rw [if_neg semicolon, List.dropWhile_cons_of_neg (by simp [isParam, digit, semicolon]), List.tail_cons]

/-- The four states of the parser are the scan of the text. -/
theorem handedAll_normal (s : List UInt8) : ParseState.normal.handedAll s = strip s := by
  induction s using strip.induct with
  | case1 => simp [strip, ParseState.handedAll]
  | case2 => simp [strip, ParseState.handedAll, ParseState.handed]
  | case3 c other => simp [strip, ParseState.handedAll, ParseState.handed, other]
  | case4 rest ih =>
    rw [strip, if_pos rfl, if_pos rfl, ← ih]
    exact Csi.handedAll (.inl rfl) rest
  | case5 d rest other ih =>
    simp [strip, ParseState.handedAll, ParseState.handed, ParseState.next, other, ih]
  | case6 c d rest other ih =>
    rw [ParseState.handedAll, strip, if_neg other, ← ih]
    simp [ParseState.handed, ParseState.next, other]

end ParseState

namespace Console

section
variable (overflow : Overflow)

/-- The console after the parser has seen a character, before anything is
printed. -/
def parse (con : Console) (c : UInt8) : Option Console :=
  match con.parseState with
  | .normal => some (if c = 0x1b then { con with parseState := .escape } else con)
  | .escape =>
    some (if c = 0x5b then { con with parseState := .escapeBracket, ansiParamCount := 0, currentParam := 0 }
      else { con with parseState := .normal })
  | _ =>
    if isAsciiDigit c then
      (overflow.fit 16 (con.currentParam * 10 + (c - 0x30).toNat)).map fun param =>
        { con with currentParam := param, parseState := .collectingParams }
    else if c = 0x3b then some { con.pushParam with parseState := .escapeBracket }
    else con.endSequence c

end

section
variable {overflow : Overflow} {con con' : Console} {c : UInt8}

theorem addDigit_eq : con.addDigit overflow c =
    (overflow.fit 16 (con.currentParam * 10 + (c - 0x30).toNat)).map fun param => { con with currentParam := param } := by
  unfold addDigit
  rw [← overflow.fit_bind_add]
  cases overflow.fit 16 (con.currentParam * 10) with
  | none => rfl
  | some tens =>
    simp only [Option.bind_eq_bind, Option.bind_some]
    cases overflow.fit 16 (tens + (c - 0x30).toNat) <;> rfl

theorem pushParam_bracket (state : con.parseState = .escapeBracket) :
    { con.pushParam with currentParam := 0 } = { con.pushParam with parseState := .escapeBracket } := by
  unfold pushParam
  split <;> rw [← state]

theorem pushParam_collecting (con : Console) :
    { con.pushParam with currentParam := 0, parseState := .escapeBracket } =
      { con.pushParam with parseState := .escapeBracket } := by
  unfold pushParam
  split <;> rfl

/-- The parser sees a character first, and then the characters that it hands on
are printed. -/
theorem printChar_eq (overflow : Overflow) (con : Console) (c : UInt8) : con.printChar overflow c =
    (con.parse overflow c).bind fun con' =>
      (con.parseState.handed c).foldlM (fun con c => con.printNormalChar overflow c) con' := by
  unfold printChar parse ParseState.handed
  cases state : con.parseState with
  | normal =>
    dsimp only
    split
    · rfl
    · simp
  | escape =>
    dsimp only
    split
    · rfl
    · simp
  | escapeBracket =>
    dsimp only
    rw [addDigit_eq, pushParam_bracket state]
    simp only [List.foldlM_nil, Option.pure_def, Option.bind_fun_some]
    split
    · cases overflow.fit 16 (con.currentParam * 10 + (c - 0x30).toNat) <;> rfl
    · rfl
  | collectingParams =>
    dsimp only
    rw [addDigit_eq, pushParam_collecting]
    simp only [List.foldlM_nil, Option.pure_def, Option.bind_fun_some]
    split
    · simp only [state]
    · rfl

theorem parse_digit (overflow : Overflow) (csi : con.parseState.Csi) (digit : isAsciiDigit c = true) : con.parse overflow c =
    (overflow.fit 16 (con.currentParam * 10 + (c - 0x30).toNat)).map fun param =>
      { con with currentParam := param, parseState := .collectingParams } := by
  unfold parse
  rcases csi with state | state <;> simp [state, digit]

theorem parse_semicolon (csi : con.parseState.Csi) :
    con.parse overflow 0x3b = some { con.pushParam with parseState := .escapeBracket } := by
  unfold parse
  rcases csi with state | state <;> simp [state, isAsciiDigit]

theorem parse_end (csi : con.parseState.Csi) (last : isParam c = false) : con.parse overflow c = con.endSequence c := by
  obtain ⟨digit, semicolon⟩ := Bool.or_eq_false_iff.mp last
  unfold parse
  rcases csi with state | state <;> simp [state, digit, beq_eq_false_iff_ne.mp semicolon]

end

def colors (con : Console) : Color × Color := (con.fgColor, con.bgColor)

def withColors (con : Console) (colors : Color × Color) : Console := { con with fgColor := colors.1, bgColor := colors.2 }

end Console

/-- The colours of the codes from 30 and from 40 on. -/
def sgrPalette : List Color := [.black, .red, .green, .yellow, .blue, .magenta, .cyan, .white]

/-- The meaning of an SGR code, for the colours of the text and of its
background. -/
def sgrCode (colors : Color × Color) (code : Nat) : Color × Color :=
  if code = 0 then (.white, .black)
  else if 30 ≤ code ∧ code < 38 then (sgrPalette.getD (code - 30) .black, colors.2)
  else if 40 ≤ code ∧ code < 48 then (colors.1, sgrPalette.getD (code - 40) .black)
  else colors

/-- The value of a decimal numeral, after the digits of `n`; no digits are 0. -/
def numeralFrom (n : Nat) (digits : List UInt8) : Nat := digits.foldl (fun n c => n * 10 + (c - 0x30).toNat) n

def numeral (digits : List UInt8) : Nat := numeralFrom 0 digits

/-- The rest of a sequence after `ESC [`. -/
def sgrBody (params : List (List UInt8)) : List UInt8 := [0x3b].intercalate params ++ [0x6d]

/-- The sequence `ESC [ p1 ; … ; pk m`. -/
def sgrSequence (params : List (List UInt8)) : List UInt8 := 0x1b :: 0x5b :: sgrBody params

theorem numeralFrom_ge (n : Nat) (digits : List UInt8) : n ≤ numeralFrom n digits := by
  induction digits generalizing n with
  | nil => exact Nat.le_refl n
  | cons c digits ih =>
    have rest := ih (n * 10 + (c - 0x30).toNat)
    rw [numeralFrom, List.foldl_cons]
    exact Nat.le_trans (by omega) rest

theorem numeralFrom_mod (n : Nat) (digits : List UInt8) :
    numeralFrom (n % 2 ^ 16) digits % 2 ^ 16 = numeralFrom n digits % 2 ^ 16 := by
  induction digits generalizing n with
  | nil => exact Nat.mod_mod ..
  | cons c digits ih =>
    have same : (n % 2 ^ 16 * 10 + (c - 0x30).toNat) % 2 ^ 16 = (n * 10 + (c - 0x30).toNat) % 2 ^ 16 := by omega
    rw [numeralFrom, List.foldl_cons, ← numeralFrom, ← ih, same, ih, numeralFrom, numeralFrom, List.foldl_cons]

/-- Digits that are stored one by one are a number that is stored once. -/
theorem fit_numeral (overflow : Overflow) (n : Nat) (digits : List UInt8) :
    ((overflow.fit 16 n).bind fun m => overflow.fit 16 (numeralFrom m digits)) = overflow.fit 16 (numeralFrom n digits) := by
  cases overflow with
  | panics =>
    by_cases small : n < 2 ^ 16
    · rw [Overflow.fit_of_lt _ small, Option.bind_some]
    · have large := Nat.le_of_not_lt small
      rw [Overflow.fit_panics large, Overflow.fit_panics (large.trans (numeralFrom_ge n digits)), Option.bind_none]
  | wraps => rw [Overflow.fit_wraps, Option.bind_some, Overflow.fit_wraps, Overflow.fit_wraps, numeralFrom_mod]

namespace Console

section
variable {overflow : Overflow} {con con' : Console} {c : UInt8}

theorem sgr_eq (con : Console) (code : Nat) : con.sgr code = con.withColors (sgrCode con.colors code) := by
  by_cases small : code < 48
  · interval_cases code <;> rfl
  · have ignored : sgrCode con.colors code = con.colors := by
      rw [sgrCode, if_neg (by omega), if_neg (by omega), if_neg (by omega)]
    have idle : con.sgr code = con := by
      unfold sgr
      split <;> first | rfl | omega
    rw [ignored, idle]
    rfl

theorem foldl_sgr (codes : List Nat) (con : Console) :
    codes.foldl sgr con = con.withColors (codes.foldl sgrCode con.colors) := by
  induction codes generalizing con with
  | nil => rfl
  | cons code codes ih =>
    rw [List.foldl_cons, ih, sgr_eq]
    rfl

/-- Only the parameters change when one is stored. -/
theorem pushParam_fields (con : Console) : con.pushParam = { con with
    ansiParams := con.pushParam.ansiParams, ansiParamCount := con.pushParam.ansiParamCount, currentParam := 0 } := by
  unfold pushParam
  split <;> rfl

/-- The parameters that are stored so far, of which the first sixteen count. -/
structure Pushed (con : Console) (values : List Nat) : Prop where
  length : con.ansiParams.length = maxAnsiParams
  count : con.ansiParamCount = min values.length maxAnsiParams
  stored : con.ansiParams.take con.ansiParamCount = values.take maxAnsiParams

theorem Pushed.pushParam {values : List Nat} (pushed : con.Pushed values) :
    con.pushParam.Pushed (values ++ [con.currentParam]) := by
  obtain ⟨length, count, stored⟩ := pushed
  have longer : (values ++ [con.currentParam]).length = values.length + 1 := List.length_append
  unfold Console.pushParam
  split
  · rename_i room
    have short : con.ansiParamCount = values.length := by omega
    refine ⟨by simpa using length, by dsimp only; omega, ?_⟩
    have inside : con.ansiParamCount < (con.ansiParams.set con.ansiParamCount con.currentParam).length := by
      rw [List.length_set]
      omega
    have before : (con.ansiParams.take con.ansiParamCount).length ≤ con.ansiParamCount := List.length_take_le ..
    rw [List.take_succ_eq_append_getElem inside, List.getElem_set_self, List.take_set, List.set_eq_of_length_le before,
      stored, List.take_of_length_le (by omega), List.take_of_length_le (by omega)]
  · rename_i full
    refine ⟨length, by dsimp only; omega, ?_⟩
    rw [List.take_append_of_le_length (by omega)]
    exact stored

theorem pushParam_colors (con : Console) : con.pushParam.colors = con.colors := by
  unfold pushParam
  split <;> rfl

theorem handleSgr_eq (positive : con.ansiParamCount ≠ 0) (inside : con.ansiParamCount ≤ con.ansiParams.length) :
    con.handleSgr = some { con.withColors ((con.ansiParams.take con.ansiParamCount).foldl sgrCode con.colors) with
      ansiParamCount := 0, currentParam := 0 } := by
  unfold handleSgr
  simp only [if_neg positive, if_pos inside, foldl_sgr]

/-- The end of an SGR sequence applies the parameters from left to right. -/
theorem Pushed.endSequence {values : List Nat} (pushed : con.Pushed values) :
    (con.endSequence 0x6d).map (fun con => (con.parseState, con.colors)) =
      some (.normal, ((values ++ [con.currentParam]).take maxAnsiParams).foldl sgrCode con.colors) := by
  obtain ⟨length, count, stored⟩ := pushed.pushParam
  have some_stored : con.pushParam.ansiParamCount ≠ 0 := by
    rw [count, List.length_append, List.length_singleton]
    unfold maxAnsiParams
    omega
  have all_stored : con.pushParam.ansiParamCount ≤ con.pushParam.ansiParams.length := by omega
  unfold Console.endSequence parseAnsiCommand
  rw [if_pos rfl, handleSgr_eq some_stored all_stored, stored, pushParam_colors]
  rfl

theorem printString_cons (overflow : Overflow) (con : Console) (c : UInt8) (s : List UInt8) :
    con.printString overflow (c :: s) = (con.printChar overflow c).bind fun con => con.printString overflow s :=
  List.foldlM_cons

theorem printString_append (overflow : Overflow) (con : Console) (s t : List UInt8) :
    con.printString overflow (s ++ t) = (con.printString overflow s).bind fun con => con.printString overflow t :=
  List.foldlM_append

/-- Nothing is printed inside of a control sequence. -/
theorem printChar_csi (csi : con.parseState.Csi) : con.printChar overflow c = con.parse overflow c := by
  rw [printChar_eq, csi.handed]
  exact Option.bind_fun_some _

/-- The digits of a parameter. -/
theorem printString_digits {digits : List UInt8} (overflow : Overflow) (csi : con.parseState.Csi)
    (all : ∀ c ∈ digits, isAsciiDigit c = true) (small : con.currentParam < 2 ^ 16) :
    con.printString overflow digits = (overflow.fit 16 (numeralFrom con.currentParam digits)).map fun param =>
      { con with currentParam := param, parseState := if digits = [] then con.parseState else .collectingParams } := by
  induction digits generalizing con with
  | nil =>
    rw [numeralFrom, List.foldl_nil, overflow.fit_of_lt small]
    rfl
  | cons c digits ih =>
    rw [printString_cons, printChar_csi csi, parse_digit overflow csi (all c (List.mem_cons_self ..)), numeralFrom,
      List.foldl_cons, ← numeralFrom, ← fit_numeral]
    cases stored : overflow.fit 16 (con.currentParam * 10 + (c - 0x30).toNat) with
    | none => rfl
    | some param =>
      have fits : param < 2 ^ 16 := by
        rw [Overflow.fit_some stored]
        exact Nat.mod_lt _ (by decide)
      rw [Option.map_some, Option.bind_some, Option.bind_some,
        ih (.inr rfl) (fun c later => all c (List.mem_cons_of_mem _ later)) fits]
      simp

/-- A parameter that is followed by another one, or by the end. -/
theorem sgrBody_cons (p q : List UInt8) (rest : List (List UInt8)) :
    sgrBody (p :: q :: rest) = p ++ 0x3b :: sgrBody (q :: rest) := by
  simp [sgrBody, List.intercalate]

theorem sgrBody_single (p : List UInt8) : sgrBody [p] = p ++ [0x6d] := by
  simp [sgrBody, List.intercalate]

/-- The parameters of a sequence as they are stored, or a panic. -/
def storedParams (overflow : Overflow) (params : List (List UInt8)) : Option (List Nat) :=
  params.mapM fun p => overflow.fit 16 (numeral p)

/-- The digits of a parameter with the value `value` have come after `values`. -/
structure Collected (con : Console) (values : List Nat) (value : Nat) (con' : Console) : Prop where
  csi : con'.parseState.Csi
  pushed : con'.Pushed values
  current : con'.currentParam = value
  colors : con'.colors = con.colors

/-- The digits of a parameter are a panic, or they are stored as its value. -/
theorem Pushed.digits {values : List Nat} {p : List UInt8} (overflow : Overflow) (pushed : con.Pushed values)
    (state : con.parseState = .escapeBracket) (none : con.currentParam = 0) (all : ∀ c ∈ p, isAsciiDigit c = true) :
    overflow.fit 16 (numeral p) = Option.none ∧ con.printString overflow p = Option.none ∨
      ∃ value con', overflow.fit 16 (numeral p) = some value ∧ con.printString overflow p = some con' ∧
        Collected con values value con' := by
  have run := printString_digits overflow (.inl state) all (none ▸ Nat.two_pow_pos 16)
  rw [none, ← numeral] at run
  cases fits : overflow.fit 16 (numeral p) with
  | none =>
    rw [fits] at run
    exact .inl ⟨rfl, run⟩
  | some value =>
    rw [fits] at run
    refine .inr ⟨value, _, rfl, run, ?_, ⟨pushed.length, pushed.count, pushed.stored⟩, rfl, rfl⟩
    dsimp only
    split
    · exact .inl state
    · exact .inr rfl

/-- The semicolon behind a parameter. -/
theorem Collected.semicolon {values : List Nat} {value : Nat} (overflow : Overflow)
    (collected : Collected con values value con') :
    let next := { con'.pushParam with parseState := .escapeBracket }
    con'.printChar overflow 0x3b = some next ∧ next.Pushed (values ++ [value]) ∧ next.currentParam = 0 ∧
      next.colors = con.colors := by
  obtain ⟨csi, pushed, current, colors⟩ := collected
  have after := pushed.pushParam
  rw [current] at after
  refine ⟨(printChar_csi csi).trans (parse_semicolon csi), ⟨after.length, after.count, after.stored⟩, ?_, ?_⟩
  · exact congrArg Console.currentParam (pushParam_fields con')
  · exact (pushParam_colors con').trans colors

/-- The `m` behind the last parameter. -/
theorem Collected.last {values : List Nat} {value : Nat} (collected : Collected con values value con') :
    (con'.printString overflow [0x6d]).map (fun con => (con.parseState, con.colors)) =
      some (.normal, ((values ++ [value]).take maxAnsiParams).foldl sgrCode con.colors) := by
  obtain ⟨csi, pushed, current, colors⟩ := collected
  have done := pushed.endSequence
  rw [current, colors] at done
  have single : con'.printString overflow [0x6d] = con'.printChar overflow 0x6d :=
    (printString_cons overflow con' 0x6d []).trans (Option.bind_fun_some _)
  rw [single, printChar_csi csi, parse_end csi (by decide), done]

/-- All that an SGR sequence does to the parser and the colours: its parameters
are stored, and then the first sixteen of them are applied. -/
theorem Pushed.sgrBody {values : List Nat} {params : List (List UInt8)} (pushed : con.Pushed values)
    (state : con.parseState = .escapeBracket) (none : con.currentParam = 0) (nonempty : params ≠ [])
    (digits : ∀ p ∈ params, ∀ c ∈ p, isAsciiDigit c = true) :
    (con.printString overflow (ProkaKernel.sgrBody params)).map (fun con => (con.parseState, con.colors)) =
      (storedParams overflow params).map fun stored =>
        (.normal, ((values ++ stored).take maxAnsiParams).foldl sgrCode con.colors) := by
  induction params generalizing con values with
  | nil => exact absurd rfl nonempty
  | cons p rest ih =>
    unfold storedParams
    rw [List.mapM_cons]
    rcases pushed.digits overflow state none (digits p (List.mem_cons_self ..)) with
      ⟨fits, run⟩ | ⟨value, con1, fits, run, collected⟩
    · rw [fits]
      cases rest with
      | nil =>
        rw [sgrBody_single, printString_append, run]
        rfl
      | cons q rest =>
        rw [sgrBody_cons, printString_append, run]
        rfl
    · rw [fits]
      cases rest with
      | nil =>
        rw [sgrBody_single, printString_append, run, Option.bind_some, collected.last]
        rfl
      | cons q rest =>
        obtain ⟨printed, pushed2, current2, colors2⟩ := collected.semicolon overflow
        have done := ih pushed2 rfl current2 (List.cons_ne_nil _ _) fun p later => digits p (List.mem_cons_of_mem _ later)
        rw [colors2] at done
        rw [sgrBody_cons, printString_append, run, Option.bind_some, printString_cons, printed, Option.bind_some, done,
          storedParams]
        cases (q :: rest).mapM fun p => overflow.fit 16 (numeral p) with
        | none => rfl
        | some stored => simp

theorem printString_sgrSequence (overflow : Overflow) {params : List (List UInt8)} (normal : con.parseState = .normal)
    (length : con.ansiParams.length = maxAnsiParams) (nonempty : params ≠ [])
    (digits : ∀ p ∈ params, ∀ c ∈ p, isAsciiDigit c = true) :
    (con.printString overflow (sgrSequence params)).map (fun con => (con.parseState, con.colors)) =
      (storedParams overflow params).map fun stored => (.normal, (stored.take maxAnsiParams).foldl sgrCode con.colors) := by
  have escape : con.printChar overflow 0x1b = some { con with parseState := .escape } := by
    unfold printChar
    rw [normal]
    rfl
  have empty : ({ con with parseState := .escapeBracket, ansiParamCount := 0, currentParam := 0 } : Console).Pushed [] :=
    ⟨length, rfl, rfl⟩
  rw [sgrSequence, printString_cons, escape, Option.bind_some]
  exact empty.sgrBody rfl rfl nonempty digits

theorem storedParams_wraps (params : List (List UInt8)) :
    storedParams .wraps params = some (params.map fun p => numeral p % 2 ^ 16) := by
  unfold storedParams
  simp only [Overflow.fit_wraps]
  exact List.mapM_pure ..

theorem storedParams_panics (params : List (List UInt8)) :
    (∀ p ∈ params, numeral p < 2 ^ 16) ∧ storedParams .panics params = some (params.map numeral) ∨
      ¬(∀ p ∈ params, numeral p < 2 ^ 16) ∧ storedParams .panics params = none := by
  induction params with
  | nil => exact .inl ⟨fun _ none => absurd none List.not_mem_nil, rfl⟩
  | cons p params ih =>
    unfold storedParams at ih ⊢
    rw [List.mapM_cons, List.forall_mem_cons]
    by_cases small : numeral p < 2 ^ 16
    · rw [Overflow.fit_of_lt _ small]
      rcases ih with ⟨fits, stored⟩ | ⟨large, stored⟩
      · exact .inl ⟨⟨small, fits⟩, by rw [stored]; rfl⟩
      · exact .inr ⟨fun both => large both.2, by rw [stored]; rfl⟩
    · exact .inr ⟨fun both => small both.1, by rw [Overflow.fit_panics (Nat.le_of_not_lt small)]; rfl⟩

end

/-- An SGR sequence means what it says: the colours are those of its first
sixteen numbers, from left to right, and the parser is back. -/
def MeansSgr (overflow : Overflow) (con : Console) (params : List (List UInt8)) : Prop :=
  ∃ con', con.printString overflow (sgrSequence params) = some con' ∧ con'.parseState = .normal ∧
    con'.colors = ((params.map numeral).take maxAnsiParams).foldl sgrCode con.colors

theorem meansSgr_iff {overflow : Overflow} {con : Console} {params : List (List UInt8)} (normal : con.parseState = .normal)
    (length : con.ansiParams.length = maxAnsiParams) (nonempty : params ≠ [])
    (digits : ∀ p ∈ params, ∀ c ∈ p, isAsciiDigit c = true) : MeansSgr overflow con params ↔
      ∃ stored, storedParams overflow params = some stored ∧
        (stored.take maxAnsiParams).foldl sgrCode con.colors =
          ((params.map numeral).take maxAnsiParams).foldl sgrCode con.colors := by
  have run := printString_sgrSequence overflow normal length nonempty digits
  constructor
  · rintro ⟨con', printed, _, colors⟩
    rw [printed] at run
    obtain ⟨stored, same, outcome⟩ := Option.map_eq_some_iff.mp run.symm
    exact ⟨stored, same, (congrArg Prod.snd outcome).trans colors⟩
  · rintro ⟨stored, same, colors⟩
    rw [same] at run
    obtain ⟨con', printed, outcome⟩ := Option.map_eq_some_iff.mp run
    exact ⟨con', printed, congrArg Prod.fst outcome, (congrArg Prod.snd outcome).trans colors⟩

/-- With overflow checks an SGR sequence means what it says if and only if no
number is above 65535; any other one is a panic. Without them the numbers count
modulo 65536, and the colours have to be the same for these. -/
theorem sgr_means_iff {con : Console} {params : List (List UInt8)} (normal : con.parseState = .normal)
    (length : con.ansiParams.length = maxAnsiParams) (nonempty : params ≠ [])
    (digits : ∀ p ∈ params, ∀ c ∈ p, isAsciiDigit c = true) :
    (MeansSgr .panics con params ↔ ∀ p ∈ params, numeral p < 2 ^ 16) ∧
    (MeansSgr .wraps con params ↔
      ((params.map fun p => numeral p % 2 ^ 16).take maxAnsiParams).foldl sgrCode con.colors =
        ((params.map numeral).take maxAnsiParams).foldl sgrCode con.colors) := by
  rw [meansSgr_iff normal length nonempty digits, meansSgr_iff normal length nonempty digits, storedParams_wraps]
  constructor
  · rcases storedParams_panics params with ⟨fits, stored⟩ | ⟨large, stored⟩
    · exact iff_of_true ⟨_, stored, rfl⟩ fits
    · simp only [stored, reduceCtorEq, false_and, exists_false, large]
  · simp

/-- The sequence `ESC [ 31 ; m`, with an empty second parameter. -/
theorem sgr_means_red_reset : MeansSgr .panics (init smallFramebuffer fun _ => 0) [[0x33, 0x31], []] :=
  (sgr_means_iff rfl rfl (by decide) (by simp [isAsciiDigit])).1.mpr (by decide)

/-- The sequence `ESC [ 65567 m` is a panic, or it is taken for `ESC [ 31 m`. -/
theorem sgr_large_number :
    ¬MeansSgr .panics (init smallFramebuffer fun _ => 0) [[0x36, 0x35, 0x35, 0x36, 0x37]] ∧
      ¬MeansSgr .wraps (init smallFramebuffer fun _ => 0) [[0x36, 0x35, 0x35, 0x36, 0x37]] := by
  constructor
  · rw [meansSgr_iff rfl rfl (by decide) (by simp [isAsciiDigit])]
    rintro ⟨stored, same, _⟩
    have panic : storedParams .panics [[0x36, 0x35, 0x35, 0x36, 0x37]] = none := by decide
    rw [panic] at same
    cases same
  · rw [meansSgr_iff rfl rfl (by decide) (by simp [isAsciiDigit]), storedParams_wraps]
    rintro ⟨stored, same, colors⟩
    cases same
    exact absurd colors (by decide)

/-- The array of parameters has its length, and inside of a control sequence no
more of it is in use. -/
structure Sized (con : Console) : Prop where
  length : con.ansiParams.length = maxAnsiParams
  count : con.parseState.Csi → con.ansiParamCount ≤ maxAnsiParams

/-- The parser does not touch the screen, and it goes to the next state. -/
structure Parsed (con : Console) (c : UInt8) (con' : Console) : Prop where
  fb : con'.fb = con.fb
  mem : con'.mem = con.mem
  position : con'.position = con.position
  state : con'.parseState = con.parseState.next c
  sized : con'.Sized

section
variable {overflow : Overflow} {con con' : Console} {c : UInt8}

theorem not_csi_normal : ¬ParseState.normal.Csi := by
  unfold ParseState.Csi
  decide

theorem not_csi_escape : ¬ParseState.escape.Csi := by
  unfold ParseState.Csi
  decide

theorem pushParam_screen (con : Console) :
    con.pushParam.fb = con.fb ∧ con.pushParam.mem = con.mem ∧ con.pushParam.position = con.position := by
  unfold pushParam
  split <;> exact ⟨rfl, rfl, rfl⟩

theorem pushParam_sized (con : Console) (length : con.ansiParams.length = maxAnsiParams)
    (count : con.ansiParamCount ≤ maxAnsiParams) :
    con.pushParam.ansiParams.length = maxAnsiParams ∧ con.pushParam.ansiParamCount ≤ maxAnsiParams ∧
      con.pushParam.ansiParamCount ≠ 0 := by
  unfold pushParam
  split
  · rename_i room
    exact ⟨by simpa using length, room, Nat.succ_ne_zero _⟩
  · rename_i full
    refine ⟨length, count, fun zero => full ?_⟩
    rw [show con.ansiParamCount = 0 from zero]
    decide

/-- The last byte of a control sequence. -/
theorem endSequence_parsed (sized : con.Sized) (csi : con.parseState.Csi) (last : isParam c = false) :
    ∃ con', con.endSequence c = some con' ∧ Parsed con c con' := by
  obtain ⟨digit, semicolon⟩ := Bool.or_eq_false_iff.mp last
  obtain ⟨length, count, positive⟩ := pushParam_sized con sized.length (sized.count csi)
  have state : ParseState.normal = con.parseState.next c := by
    rw [csi.next, if_neg (by simp [digit]), if_neg (beq_eq_false_iff_ne.mp semicolon)]
  obtain ⟨fb, mem, position⟩ := pushParam_screen con
  unfold endSequence parseAnsiCommand
  split
  · rw [handleSgr_eq positive (by omega)]
    exact ⟨_, rfl, fb, mem, position, state, length, fun csi => absurd csi not_csi_normal⟩
  · exact ⟨_, rfl, fb, mem, position, state, length, fun csi => absurd csi not_csi_normal⟩

/-- A digit is the only character on which the parser can panic. -/
theorem parse_other (overflow : Overflow) (sized : con.Sized) (other : ¬(con.parseState.Csi ∧ isAsciiDigit c = true)) :
    ∃ con', con.parse overflow c = some con' ∧ Parsed con c con' ∧ (con'.parseState.Csi → con'.currentParam = 0) := by
  by_cases csi : con.parseState.Csi
  · have digit : isAsciiDigit c = false := Bool.eq_false_iff.mpr fun digit => other ⟨csi, digit⟩
    by_cases semicolon : c = 0x3b
    · subst semicolon
      obtain ⟨length, count, _⟩ := pushParam_sized con sized.length (sized.count csi)
      obtain ⟨fb, mem, position⟩ := pushParam_screen con
      refine ⟨_, parse_semicolon csi, ⟨fb, mem, position, ?_, length, fun _ => count⟩, fun _ => ?_⟩
      · rw [csi.next]
        rfl
      · exact congrArg Console.currentParam (pushParam_fields con)
    · have last : isParam c = false := by simp [isParam, digit, semicolon]
      obtain ⟨con', run, parsed⟩ := endSequence_parsed sized csi last
      have normal : con'.parseState = .normal := by
        rw [parsed.state, csi.next, if_neg (by simp [digit]), if_neg semicolon]
      exact ⟨con', (parse_end csi last).trans run, parsed, fun inside => absurd (normal ▸ inside) not_csi_normal⟩
  · unfold parse
    cases state : con.parseState with
    | normal =>
      by_cases escape : c = 0x1b
      · refine ⟨_, congrArg some (if_pos escape), ⟨rfl, rfl, rfl, ?_, sized.length, ?_⟩, ?_⟩
        · rw [state, ParseState.next, if_pos escape]
        · exact fun inside => absurd inside not_csi_escape
        · exact fun inside => absurd inside not_csi_escape
      · refine ⟨con, congrArg some (if_neg escape), ⟨rfl, rfl, rfl, ?_, sized⟩, fun inside => absurd inside csi⟩
        rw [state, ParseState.next, if_neg escape]
    | escape =>
      by_cases bracket : c = 0x5b
      · refine ⟨_, congrArg some (if_pos bracket), ⟨rfl, rfl, rfl, ?_, sized.length, fun _ => Nat.zero_le _⟩, fun _ => rfl⟩
        rw [state, ParseState.next, if_pos bracket]
      · refine ⟨_, congrArg some (if_neg bracket), ⟨rfl, rfl, rfl, ?_, sized.length, ?_⟩, ?_⟩
        · rw [state, ParseState.next, if_neg bracket]
        · exact fun inside => absurd inside not_csi_normal
        · exact fun inside => absurd inside not_csi_normal
    | escapeBracket => exact absurd (.inl state) csi
    | collectingParams => exact absurd (.inr state) csi

theorem parse_digit_parsed (sized : con.Sized) (csi : con.parseState.Csi) (digit : isAsciiDigit c = true) (param : Nat) :
    Parsed con c { con with currentParam := param, parseState := .collectingParams } where
  fb := rfl
  mem := rfl
  position := rfl
  state := by rw [csi.next, if_pos digit]
  sized := ⟨sized.length, fun _ => sized.count csi⟩

end

/-- A character in given colours. -/
def printIn (overflow : Overflow) (con : Console) (x : Nat × Color × Color) : Option Console :=
  (con.withColors x.2).printNormalChar overflow x.1

/-- Two more consoles: one with the same cursor, and one with the same screen. -/
structure Follows (con plain painted : Console) : Prop where
  plainFb : plain.fb = con.fb
  plainPosition : plain.position = con.position
  paintedFb : painted.fb = con.fb
  paintedMem : painted.mem = con.mem
  paintedPosition : painted.position = con.position

section
variable {con con' plain painted : Console} {c : UInt8}

theorem Follows.printNormalChar {h : Nat} (follows : Follows con plain painted) (known : h < 128) :
    ∃ con' plain' painted', con.printNormalChar .wraps h = some con' ∧ plain.printNormalChar .wraps h = some plain' ∧
      painted.printIn .wraps (h, con.colors) = some painted' ∧ Follows con' plain' painted' ∧
      con' = con.onScreen con'.mem con'.position := by
  obtain ⟨con', run⟩ := printNormalChar_wraps con known
  obtain ⟨plain', run1⟩ := printNormalChar_wraps plain known
  obtain ⟨painted', run2⟩ := printNormalChar_wraps (painted.withColors con.colors) known
  obtain ⟨m, moved, same⟩ := printNormalChar_keeps run
  obtain ⟨m1, moved1, same1⟩ := printNormalChar_keeps run1
  obtain ⟨m2, moved2, same2⟩ := printNormalChar_keeps run2
  rw [follows.plainFb, follows.plainPosition, moved] at moved1
  cases moved1
  have there : (painted.withColors con.colors).fb.move .wraps (painted.withColors con.colors).position h =
      con.fb.move .wraps con.position h := by
    change painted.fb.move .wraps painted.position h = _
    rw [follows.paintedFb, follows.paintedPosition]
  rw [there, moved] at moved2
  cases moved2
  have pixels : painted'.mem = con'.mem :=
    printNormalChar_congr (painted.withColors con.colors) follows.paintedFb follows.paintedMem follows.paintedPosition rfl rfl
      run run2
  have next : con'.position = m.next := by rw [same]; rfl
  refine ⟨con', plain', painted', run, run1, run2, ⟨?_, ?_, ?_, pixels, ?_⟩, ?_⟩
  · rw [same, same1]
    exact follows.plainFb
  · rw [next, same1]
    rfl
  · rw [same, same2]
    exact follows.paintedFb
  · rw [next, same2]
    rfl
  · rw [next]
    exact same

theorem Follows.printAll {hs : List Nat} (follows : Follows con plain painted) (known : ∀ h ∈ hs, h < 128) :
    ∃ con' plain' painted', hs.foldlM (fun con h => con.printNormalChar .wraps h) con = some con' ∧
      hs.foldlM (fun con h => con.printNormalChar .wraps h) plain = some plain' ∧
      (hs.map (·, con.colors)).foldlM (printIn .wraps) painted = some painted' ∧ Follows con' plain' painted' ∧
      con' = con.onScreen con'.mem con'.position := by
  induction hs generalizing con plain painted with
  | nil => exact ⟨con, plain, painted, rfl, rfl, rfl, follows, rfl⟩
  | cons h hs ih =>
    obtain ⟨con1, plain1, painted1, run, run1, run2, follows1, same⟩ :=
      follows.printNormalChar (known h (List.mem_cons_self ..))
    obtain ⟨con2, plain2, painted2, rest, rest1, rest2, follows2, same2⟩ :=
      ih follows1 fun h later => known h (List.mem_cons_of_mem _ later)
    have colors : con1.colors = con.colors := by rw [same]; rfl
    rw [colors] at rest2
    refine ⟨con2, plain2, painted2, ?_, ?_, ?_, follows2, ?_⟩
    · rw [List.foldlM_cons, run]
      exact rest
    · rw [List.foldlM_cons, run1]
      exact rest1
    · rw [List.map_cons, List.foldlM_cons, run2]
      exact rest2
    · rw [same2, same]
      rfl

theorem handed_lt (state : ParseState) (known : c.toNat < 128) : ∀ h ∈ state.handed c, h < 128 := by
  intro h member
  unfold ParseState.handed at member
  split at member
  · split at member
    · cases member
    · rw [List.mem_singleton] at member
      omega
  · split at member
    · cases member
    · simp only [List.mem_cons, List.not_mem_nil, or_false] at member
      omega
  · cases member

/-- Without overflow checks the parser never panics. -/
theorem parse_wraps (sized : con.Sized) (c : UInt8) : ∃ con', con.parse .wraps c = some con' ∧ Parsed con c con' := by
  by_cases number : con.parseState.Csi ∧ isAsciiDigit c = true
  · have run := parse_digit .wraps number.1 number.2
    rw [Overflow.fit_wraps, Option.map_some] at run
    exact ⟨_, run, parse_digit_parsed sized number.1 number.2 _⟩
  · obtain ⟨con', run, parsed, _⟩ := parse_other .wraps sized number
    exact ⟨con', run, parsed⟩

/-- The run over a text: the characters that are handed on move the plain
console's cursor in the same way, and they paint the same pixels in the colours
that the console has when they come. -/
theorem Follows.printString {s : List UInt8} (follows : Follows con plain painted) (sized : con.Sized)
    (ascii : ∀ c ∈ s, c.toNat < 128) :
    ∃ (con' plain' painted' : Console) (colored : List (Nat × Color × Color)), con.printString .wraps s = some con' ∧
      (con.parseState.handedAll s).foldlM (fun con h => con.printNormalChar .wraps h) plain = some plain' ∧
      colored.map Prod.fst = con.parseState.handedAll s ∧ colored.foldlM (printIn .wraps) painted = some painted' ∧
      Follows con' plain' painted' := by
  induction s generalizing con plain painted with
  | nil => exact ⟨con, plain, painted, [], rfl, rfl, rfl, rfl, follows⟩
  | cons c s ih =>
    obtain ⟨con1, parsed, facts⟩ := parse_wraps sized c
    have follows1 : Follows con1 plain painted :=
      ⟨follows.plainFb.trans facts.fb.symm, follows.plainPosition.trans facts.position.symm,
        follows.paintedFb.trans facts.fb.symm, follows.paintedMem.trans facts.mem.symm,
        follows.paintedPosition.trans facts.position.symm⟩
    obtain ⟨con2, plain2, painted2, run, run1, run2, follows2, same⟩ :=
      follows1.printAll (handed_lt con.parseState (ascii c (List.mem_cons_self ..)))
    have sized2 : con2.Sized := by
      rw [same]
      exact ⟨facts.sized.length, facts.sized.count⟩
    have state : con2.parseState = con.parseState.next c := by
      rw [same]
      exact facts.state
    obtain ⟨con3, plain3, painted3, colored, rest, rest1, chars, rest2, follows3⟩ :=
      ih follows2 sized2 fun c later => ascii c (List.mem_cons_of_mem _ later)
    rw [state] at rest1 chars
    refine ⟨con3, plain3, painted3, (con.parseState.handed c).map (·, con1.colors) ++ colored, ?_, ?_, ?_, ?_, follows3⟩
    · rw [printString_cons, printChar_eq, parsed, Option.bind_some, run]
      exact rest
    · rw [ParseState.handedAll, List.foldlM_append, run1]
      exact rest1
    · rw [ParseState.handedAll, List.map_append, chars, List.map_map]
      exact congrArg (· ++ _) (List.map_id _)
    · rw [List.foldlM_append, run2]
      exact rest2

end

/-- The calls in which a text comes do not matter. -/
theorem printString_calls (overflow : Overflow) (con : Console) (calls : List (List UInt8)) :
    calls.foldlM (fun con call => con.printString overflow call) con = con.printString overflow calls.flatten := by
  induction calls generalizing con with
  | nil => rfl
  | cons call calls ih =>
    rw [List.foldlM_cons, List.flatten_cons, printString_append]
    exact congrArg _ (funext ih)

/-- The text is printed as it is without its escape sequences. Only the
characters of the stripped text are handed on; the cursor goes where it goes for
them, and their pixels are drawn, in whatever colours. -/
def PrintsStripped (overflow : Overflow) (con : Console) (s : List UInt8) : Prop :=
  con.parseState.handedAll s = strip s ∧ ∃ (con' plain painted : Console) (colored : List (Nat × Color × Color)),
    con.printString overflow s = some con' ∧
    (strip s).foldlM (fun con h => con.printNormalChar overflow h) con = some plain ∧ plain.position = con'.position ∧
    colored.map Prod.fst = strip s ∧ colored.foldlM (printIn overflow) con = some painted ∧
    painted.mem = con'.mem ∧ painted.position = con'.position

/-- Escape sequences never disturb the text, at no moment and in whatever calls
it comes. -/
theorem escapes_never_disturb (con : Console) {s : List UInt8} (calls : List (List UInt8)) (normal : con.parseState = .normal)
    (length : con.ansiParams.length = maxAnsiParams) (ascii : ∀ c ∈ s, c.toNat < 128) (split : calls.flatten = s) :
    calls.foldlM (fun con call => con.printString .wraps call) con = con.printString .wraps s ∧
      ∀ p, p <+: s → PrintsStripped .wraps con p := by
  refine ⟨split ▸ printString_calls .wraps con calls, fun p before => ?_⟩
  have sized : con.Sized := ⟨length, fun inside => absurd (normal ▸ inside) not_csi_normal⟩
  have same : Follows con con con := ⟨rfl, rfl, rfl, rfl, rfl⟩
  obtain ⟨con', plain, painted, colored, run, run1, chars, run2, follows⟩ :=
    same.printString sized fun c inside => ascii c (before.subset inside)
  have text : con.parseState.handedAll p = strip p := by
    rw [normal]
    exact ParseState.handedAll_normal p
  rw [text] at run1 chars
  exact ⟨text, con', plain, painted, colored, run, run1, follows.plainPosition, chars, run2, follows.paintedMem,
    follows.paintedPosition⟩

/-- A red `b` after an `a`, in two calls. -/
theorem escapes_never_disturb_red :
    strip [0x61, 0x1b, 0x5b, 0x33, 0x31, 0x6d, 0x62] = [0x61, 0x62] ∧
      PrintsStripped .wraps (init smallFramebuffer fun _ => 0) [0x61, 0x1b, 0x5b, 0x33, 0x31, 0x6d, 0x62] := by
  have both := escapes_never_disturb (init smallFramebuffer fun _ => 0) [[0x61, 0x1b, 0x5b], [0x33, 0x31, 0x6d, 0x62]] rfl rfl
    (by simp) rfl
  exact ⟨by simp [strip, afterSequence, isParam, isAsciiDigit], both.2 _ List.prefix_rfl⟩

end Console

end ProkaKernel

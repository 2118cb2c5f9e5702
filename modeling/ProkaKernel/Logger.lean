import ProkaKernel.ConsoleBounds

namespace ProkaKernel

/-- The levels of a log record. -/
inductive Level
  | error
  | warn
  | info
  | debug
  | trace
deriving DecidableEq

namespace Level

/-- A more verbose level comes later. -/
def rank : Level → Nat
  | .error => 1
  | .warn => 2
  | .info => 3
  | .debug => 4
  | .trace => 5

def name : Level → List UInt8
  | .error => [0x45, 0x52, 0x52, 0x4f, 0x52]
  | .warn => [0x57, 0x41, 0x52, 0x4e]
  | .info => [0x49, 0x4e, 0x46, 0x4f]
  | .debug => [0x44, 0x45, 0x42, 0x55, 0x47]
  | .trace => [0x54, 0x52, 0x41, 0x43, 0x45]

end Level

/-- The maximal level that `logger::init` sets. -/
def maxLevel (level : String) : Level :=
  if level = "trace" then .trace
  else if level = "debug" then .debug
  else if level = "info" then .info
  else if level = "warn" then .warn
  else if level = "error" then .error
  else .info

/-- What is given to the logger: a record, or the arguments of `success!`. -/
inductive Message
  | record (level : Level) (args : List UInt8)
  | success (args : List UInt8)

namespace Message

/-- The last digit of the colour sequence `ESC [ 3x m`. -/
def digit : Message → UInt8
  | record .error _ => 0x31
  | record .warn _ => 0x33
  | record .info _ => 0x37
  | record .debug _ => 0x34
  | record .trace _ => 0x35
  | success _ => 0x32

def color (message : Message) : List UInt8 := [0x1b, 0x5b, 0x33, message.digit, 0x6d]

/-- The level in brackets, and a blank. -/
def tag : Message → List UInt8
  | record level _ => 0x5b :: level.name ++ [0x5d, 0x20]
  | success _ => [0x5b, 0x53, 0x55, 0x43, 0x43, 0x45, 0x53, 0x53, 0x5d, 0x20]

def args : Message → List UInt8
  | record _ args => args
  | success args => args

/-- The sequence `ESC [ 0 m` and the end of the line. -/
def ending : List UInt8 := [0x1b, 0x5b, 0x30, 0x6d, 0x0a]

/-- The text that is printed. -/
def line (message : Message) : List UInt8 := message.color ++ message.tag ++ message.args ++ ending

/-- Records above the maximal level are dropped. -/
def passes (max : Level) : Message → Bool
  | record level _ => level.rank ≤ max.rank
  | success _ => true

/-- The colour of the tag. -/
def shade : Message → Color
  | record .error _ => .red
  | record .warn _ => .yellow
  | record .info _ => .white
  | record .debug _ => .blue
  | record .trace _ => .magenta
  | success _ => .green

end Message

namespace ParseState

/-- The state after a text. -/
def after (state : ParseState) (s : List UInt8) : ParseState := s.foldl next state

end ParseState

namespace Console

def printLines (overflow : Overflow) (con : Console) (messages : List Message) : Option Console :=
  messages.foldlM (fun con message => con.printString overflow message.line) con

/-- One message after another is given to the logger, which was set up with this level. -/
def logAll (overflow : Overflow) (level : String) (con : Console) (messages : List Message) : Option Console :=
  con.printLines overflow (messages.filter (Message.passes (maxLevel level)))

/-- What is printed of a text, with the colours of each character. -/
def shows (overflow : Overflow) (con : Console) (s : List UInt8) : List (Nat × Color × Color) :=
  (con.calls overflow s).map fun call => (call.1, call.2.colors)

section
variable {overflow : Overflow} {con con' : Console} {c : UInt8} {s : List UInt8}

theorem printNormalChar_parses {h : Nat} (run : con.printNormalChar overflow h = some con') :
    con'.parseState = con.parseState ∧ con'.colors = con.colors ∧ (con.Sized → con'.Sized) := by
  obtain ⟨m, _, same⟩ := printNormalChar_keeps run
  rw [same]
  exact ⟨rfl, rfl, fun sized => ⟨sized.length, sized.count⟩⟩

theorem printAll_parses {hs : List Nat} (run : hs.foldlM (fun con h => con.printNormalChar overflow h) con = some con') :
    con'.parseState = con.parseState ∧ con'.colors = con.colors ∧ (con.Sized → con'.Sized) := by
  induction hs generalizing con with
  | nil =>
    cases run
    exact ⟨rfl, rfl, id⟩
  | cons h hs ih =>
    rw [List.foldlM_cons] at run
    obtain ⟨con1, first, rest⟩ := Option.bind_eq_some_iff.mp run
    obtain ⟨state, colors, sized⟩ := printNormalChar_parses first
    obtain ⟨state1, colors1, sized1⟩ := ih rest
    exact ⟨state1.trans state, colors1.trans colors, sized1 ∘ sized⟩

/-- A character that is printed without a panic takes the parser to its next state. -/
theorem printChar_parses (sized : con.Sized) (run : con.printChar overflow c = some con') :
    con'.parseState = con.parseState.next c ∧ con'.Sized ∧ ∃ con1, con.parse overflow c = some con1 ∧
      con'.colors = con1.colors := by
  rw [printChar_eq] at run
  obtain ⟨con1, parsed, rest⟩ := Option.bind_eq_some_iff.mp run
  obtain ⟨state, colors, keeps⟩ := printAll_parses rest
  rcases parse_cases overflow sized c with ⟨panics, _⟩ | ⟨con2, same, facts, _⟩
  · rw [panics] at parsed
    cases parsed
  · cases same.symm.trans parsed
    exact ⟨state.trans facts.state, keeps facts.sized, _, same, colors⟩

theorem printString_parses (sized : con.Sized) (run : con.printString overflow s = some con') :
    con'.parseState = con.parseState.after s ∧ con'.Sized := by
  induction s generalizing con with
  | nil =>
    cases run
    exact ⟨rfl, sized⟩
  | cons c s ih =>
    rw [printString_cons] at run
    obtain ⟨con1, first, rest⟩ := Option.bind_eq_some_iff.mp run
    obtain ⟨state, sized1, _⟩ := printChar_parses sized first
    rw [ParseState.after, List.foldl_cons, ← state]
    exact ih sized1 rest

theorem callsOf_colors {hs : List Nat} (run : hs.foldlM (fun con h => con.printNormalChar overflow h) con = some con') :
    (callsOf overflow con hs).map (fun call => (call.1, call.2.colors)) = hs.map fun h => (h, con.colors) := by
  induction hs generalizing con with
  | nil => rfl
  | cons h hs ih =>
    rw [List.foldlM_cons] at run
    obtain ⟨con1, first, rest⟩ := Option.bind_eq_some_iff.mp run
    rw [callsOf, first, List.map_cons, List.map_cons, ih rest, (printNormalChar_parses first).2.1]

/-- One character of a text that is printed without a panic. -/
theorem shows_cons (run : con.printChar overflow c = some con') : ∃ con1, con.parse overflow c = some con1 ∧
    con'.colors = con1.colors ∧
    con.shows overflow (c :: s) = (con.parseState.handed c).map (fun h => (h, con1.colors)) ++ con'.shows overflow s := by
  have whole := run
  rw [printChar_eq] at run
  obtain ⟨con1, parsed, rest⟩ := Option.bind_eq_some_iff.mp run
  refine ⟨con1, parsed, (printAll_parses rest).2.1, ?_⟩
  rw [shows, calls, parsed, whole]
  dsimp only
  rw [List.map_append, callsOf_colors rest]
  rfl

theorem shows_append {t : List UInt8} (run : con.printString overflow s = some con') :
    con.shows overflow (s ++ t) = con.shows overflow s ++ con'.shows overflow t := by
  induction s generalizing con with
  | nil =>
    cases run
    rfl
  | cons c s ih =>
    rw [printString_cons] at run
    obtain ⟨con1, first, rest⟩ := Option.bind_eq_some_iff.mp run
    obtain ⟨con2, parsed, _, shown⟩ := @shows_cons overflow con con1 c s first
    obtain ⟨_, parsed', _, shown'⟩ := @shows_cons overflow con con1 c (s ++ t) first
    cases parsed.symm.trans parsed'
    rw [List.cons_append, shown', shown, ih rest, List.append_assoc]

theorem shows_chars (sized : con.Sized) (run : con.printString overflow s = some con') :
    (con.shows overflow s).map Prod.fst = con.parseState.handedAll s := by
  induction s generalizing con with
  | nil => rfl
  | cons c s ih =>
    rw [printString_cons] at run
    obtain ⟨con1, first, rest⟩ := Option.bind_eq_some_iff.mp run
    obtain ⟨state, sized1, _⟩ := printChar_parses sized first
    obtain ⟨_, _, _, shown⟩ := @shows_cons overflow con con1 c s first
    rw [shown, List.map_append, ih sized1 rest, state, ParseState.handedAll, List.map_map]
    exact congrArg (· ++ _) (List.map_id _)

/-- A text without escapes is shown as it is. -/
theorem shows_plain (normal : con.parseState = .normal) (sized : con.Sized) (plain : ∀ c ∈ s, c ≠ 0x1b)
    (run : con.printString overflow s = some con') :
    con.shows overflow s = s.map (fun c => (c.toNat, con.colors)) ∧ con'.colors = con.colors := by
  induction s generalizing con with
  | nil =>
    cases run
    exact ⟨rfl, rfl⟩
  | cons c s ih =>
    have visible := plain c (List.mem_cons_self ..)
    rw [printString_cons] at run
    obtain ⟨con1, first, rest⟩ := Option.bind_eq_some_iff.mp run
    obtain ⟨state, sized1, _⟩ := printChar_parses sized first
    obtain ⟨con2, parsed, colors, shown⟩ := @shows_cons overflow con con1 c s first
    have same : con2 = con := by
      unfold parse at parsed
      rw [normal] at parsed
      dsimp only at parsed
      rw [if_neg visible] at parsed
      exact (Option.some.inj parsed).symm
    rw [same] at colors shown
    rw [normal, ParseState.next, if_neg visible] at state
    obtain ⟨others, final⟩ := ih state sized1 (fun c later => plain c (List.mem_cons_of_mem _ later)) rest
    refine ⟨?_, final.trans colors⟩
    rw [shown, normal, ParseState.handed, if_neg visible, others, colors]
    rfl

/-- A sequence with one small parameter. -/
theorem printString_sgrSingle {digits : List UInt8} (normal : con.parseState = .normal) (sized : con.Sized)
    (all : ∀ c ∈ digits, isAsciiDigit c = true) (small : numeral digits < 2 ^ 16)
    (run : con.printString overflow (sgrSequence [digits]) = some con') :
    con'.parseState = .normal ∧ con'.colors = sgrCode con.colors (numeral digits) := by
  have outcome := printString_sgrSequence overflow normal sized.length (List.cons_ne_nil digits [])
    fun p single => List.mem_singleton.mp single ▸ all
  have stored : storedParams overflow [digits] = some [numeral digits] := by
    rw [storedParams, List.mapM_cons, overflow.fit_of_lt small]
    rfl
  rw [run, stored] at outcome
  obtain ⟨state, colors⟩ := Prod.mk.inj (Option.some.inj outcome)
  exact ⟨state, colors⟩

/-- The colour sequence of a message. -/
theorem shows_color (message : Message) (normal : con.parseState = .normal) (sized : con.Sized)
    (run : con.printString overflow message.color = some con') :
    con.shows overflow message.color = [] ∧ con'.colors = (message.shade, con.bgColor) := by
  have chars := shows_chars sized run
  have sequence : message.color = sgrSequence [[0x33, message.digit]] := by
    simp [Message.color, sgrSequence, sgrBody_single]
  have digits : ∀ c ∈ [0x33, message.digit], isAsciiDigit c = true := by
    rcases message with ⟨_ | _ | _ | _ | _, _⟩ | _ <;> simp [isAsciiDigit, Message.digit]
  have small : numeral [0x33, message.digit] < 2 ^ 16 := by
    rcases message with ⟨_ | _ | _ | _ | _, _⟩ | _ <;> simp [numeral, numeralFrom, Message.digit]
  rw [sequence] at run
  refine ⟨List.map_eq_nil_iff.mp (chars.trans ?_), (printString_sgrSingle normal sized digits small run).2.trans ?_⟩
  · rw [normal]
    rcases message with ⟨_ | _ | _ | _ | _, _⟩ | _ <;> rfl
  · rcases message with ⟨_ | _ | _ | _ | _, _⟩ | _ <;>
      simp [numeral, numeralFrom, Message.digit, Message.shade, sgrCode, sgrPalette, colors]

/-- A pending escape sequence swallows the escape that comes next, and the colours stay. -/
theorem printChar_escape (sized : con.Sized) (pending : con.parseState ≠ .normal)
    (run : con.printChar overflow 0x1b = some con') : con'.parseState = .normal ∧ con'.colors = con.colors := by
  obtain ⟨state, _, con1, parsed, colors⟩ := printChar_parses sized run
  rw [state, colors]
  unfold parse at parsed
  cases here : con.parseState with
  | normal => exact absurd here pending
  | escape =>
    rw [here] at parsed
    cases parsed
    exact ⟨rfl, rfl⟩
  | escapeBracket =>
    rw [here] at parsed
    cases parsed
    exact ⟨rfl, pushParam_colors con⟩
  | collectingParams =>
    rw [here] at parsed
    cases parsed
    exact ⟨rfl, pushParam_colors con⟩

/-- The end of a line resets the colours, unless the message ended inside of an
escape sequence. -/
theorem ending_colors (sized : con.Sized) (run : con.printString overflow Message.ending = some con') :
    con'.colors = if con.parseState = .normal then (.white, .black) else con.colors := by
  split
  · rename_i normal
    have parts : Message.ending = sgrSequence [[0x30]] ++ [0x0a] := by
      simp [Message.ending, sgrSequence, sgrBody_single]
    rw [parts, printString_append] at run
    obtain ⟨con1, first, rest⟩ := Option.bind_eq_some_iff.mp run
    obtain ⟨state, colors⟩ := printString_sgrSingle normal sized (by simp [isAsciiDigit]) (by decide) first
    exact (shows_plain state (printString_parses sized first).2 (by simp) rest).2.trans colors
  · rename_i pending
    rw [Message.ending, printString_cons] at run
    obtain ⟨con1, first, rest⟩ := Option.bind_eq_some_iff.mp run
    obtain ⟨state, colors⟩ := printChar_escape sized pending first
    exact (shows_plain state (printChar_parses sized first).2.1 (by simp) rest).2.trans colors

/-- After the line of a message the parser is back, whatever came before. -/
theorem line_normal (message : Message) (sized : con.Sized) (run : con.printString overflow message.line = some con') :
    con'.parseState = .normal ∧ con'.Sized := by
  obtain ⟨state, sized'⟩ := printString_parses sized run
  refine ⟨state.trans ?_, sized'⟩
  rw [Message.line, ParseState.after, List.foldl_append]
  generalize List.foldl ParseState.next con.parseState _ = last
  cases last <;> rfl

theorem printLines_normal {messages : List Message} (normal : con.parseState = .normal) (sized : con.Sized)
    (run : con.printLines overflow messages = some con') : con'.parseState = .normal ∧ con'.Sized := by
  induction messages generalizing con with
  | nil =>
    cases run
    exact ⟨normal, sized⟩
  | cons message messages ih =>
    rw [printLines, List.foldlM_cons] at run
    obtain ⟨con1, first, rest⟩ := Option.bind_eq_some_iff.mp run
    obtain ⟨normal1, sized1⟩ := line_normal message sized first
    exact ih normal1 sized1 rest

/-- The tag of a message, which has no escapes. -/
theorem shows_tag (message : Message) (normal : con.parseState = .normal) (sized : con.Sized)
    (run : con.printString overflow (message.color ++ message.tag) = some con') :
    con.shows overflow (message.color ++ message.tag) =
      message.tag.map fun c => (c.toNat, message.shade, con.bgColor) := by
  have plain : ∀ c ∈ message.tag, c ≠ 0x1b := by
    rcases message with ⟨_ | _ | _ | _ | _, _⟩ | _ <;> simp [Message.tag, Level.name]
  rw [printString_append] at run
  obtain ⟨con1, first, rest⟩ := Option.bind_eq_some_iff.mp run
  obtain ⟨state, sized1⟩ := printString_parses sized first
  obtain ⟨nothing, colors⟩ := shows_color message normal sized first
  have normal1 : con1.parseState = .normal := by
    rw [state, normal]
    rcases message with ⟨_ | _ | _ | _ | _, _⟩ | _ <;> rfl
  rw [shows_append first, nothing, (shows_plain normal1 sized1 plain rest).1, colors]
  rfl

end

/-- No log message disturbs the tag of another. As long as the messages print without
a panic, the parser is in its normal state after each of them, so that every tag that
passes the filter is handed to `print_normal_char` in full and in the colour of its
level. The colours are reset behind a message, unless it ends inside of an escape
sequence. -/
theorem log_tags_in_color (overflow : Overflow) (level : String) {con con' : Console} {messages before after : List Message}
    {message : Message} (normal : con.parseState = .normal) (sized : con.Sized)
    (run : con.logAll overflow level messages = some con')
    (split : messages.filter (Message.passes (maxLevel level)) = before ++ message :: after) :
    con'.parseState = .normal ∧ ∃ con1 con2 con3 con4, con.printLines overflow before = some con1 ∧
      con1.printString overflow (message.color ++ message.tag) = some con2 ∧
      con1.shows overflow (message.color ++ message.tag) =
        message.tag.map (fun c => (c.toNat, message.shade, con1.bgColor)) ∧
      con2.printString overflow message.args = some con3 ∧ con3.printString overflow Message.ending = some con4 ∧
      (con4.colors = if con3.parseState = .normal then (.white, .black) else con3.colors) ∧
      con4.printLines overflow after = some con' := by
  refine ⟨(printLines_normal normal sized run).1, ?_⟩
  rw [logAll, split, printLines, List.foldlM_append] at run
  obtain ⟨con1, first, run⟩ := Option.bind_eq_some_iff.mp run
  rw [List.foldlM_cons] at run
  obtain ⟨con4, line, rest⟩ := Option.bind_eq_some_iff.mp run
  obtain ⟨normal1, sized1⟩ := printLines_normal normal sized first
  rw [Message.line, printString_append, printString_append] at line
  obtain ⟨con3, line, last⟩ := Option.bind_eq_some_iff.mp line
  obtain ⟨con2, opening, args⟩ := Option.bind_eq_some_iff.mp line
  have sized2 := (printString_parses sized1 opening).2
  have sized3 := (printString_parses sized2 args).2
  exact ⟨con1, con2, con3, con4, first, opening, shows_tag message normal1 sized1 opening, args, last,
    ending_colors sized3 last, rest⟩

/-- An error that ends inside of an escape sequence, before a warning. -/
theorem log_tags_after_open_escape :
    ∃ con1 con', (init smallFramebuffer fun _ => 0).logAll .panics "info"
        [.record .error [0x1b, 0x5b], .record .debug [0x61], .record .warn [0x61]] = some con' ∧
      (init smallFramebuffer fun _ => 0).printLines .panics [.record .error [0x1b, 0x5b]] = some con1 ∧
      con1.shows .panics (Message.color (.record .warn [0x61]) ++ Message.tag (.record .warn [0x61])) =
        [0x5b, 0x57, 0x41, 0x52, 0x4e, 0x5d, 0x20].map fun c => (c, .yellow, con1.bgColor) := by
  have run : ((init smallFramebuffer fun _ => 0).logAll .panics "info"
      [.record .error [0x1b, 0x5b], .record .debug [0x61], .record .warn [0x61]]).isSome = true := by
    decide +kernel
  obtain ⟨con', out⟩ := Option.isSome_iff_exists.mp run
  obtain ⟨_, con1, _, _, _, first, _, shown, _⟩ := log_tags_in_color .panics "info" rfl
    ⟨rfl, fun inside => absurd inside not_csi_normal⟩ out
    (show _ = [.record .error [0x1b, 0x5b]] ++ .record .warn [0x61] :: [] from rfl)
  exact ⟨con1, con', out, first, shown⟩

end Console

end ProkaKernel

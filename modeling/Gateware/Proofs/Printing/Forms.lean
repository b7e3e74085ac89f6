import Gateware.Proofs.Printing.Words

/- The forms of the lines in a Verilog text.

   A name may be a word that Verilog gives a meaning to, such as `begin`, so a line is an assignment
   if a sign that assigns follows its first word, and only then told by that word. This file

   1. lists what a line can say, with expressions kept as texts (`Form`), and how it says it
      (`Form.text`);
   2. defines a reader of a line that looks at its characters only (`Form.read`);
   3. proves for the parts of a line that what is printed is read back (`readRange_rangeText`,
      `readStorage_signal`, `readPortName_name`), and for each form that its text is read as that
      form (`read_header` to `read_otherCondition`);
   4. concludes that every form is read back (`Form.read_text`).

   Assumed of a form is that its names are words and that its texts stand on one line
   (`Form.Legible`). -/
namespace Gateware.Verilog

/-! ## Forms and their texts -/

/-- The highest bit of a bus; a single bit has no range. -/
def topBit (width : Nat) : Option Nat := if width > 1 then some (width - 1) else none

/-- The range of a bus with the given highest bit. -/
def rangeText : Option Nat → String
  | none => ""
  | some top => s!" [{top}:0]"

/-- What a line of a Verilog text says. -/
inductive Form where
  /-- The first line of a module. -/
  | header (name : String)
  /-- A port, and whether a comma follows it. -/
  | port (direction : Direction) (isRegister : Bool) (top : Option Nat) (name : String) (more : Bool)
  /-- The end of the ports. -/
  | endPorts
  | declaration (isRegister : Bool) (top : Option Nat) (name : String)
  | assign (target value : String)
  /-- The first line of a procedure, and whether it has a `begin`. -/
  | always (sensitivity : Sensitivity) (opens : Bool)
  | blocking (target value : String)
  | nonblocking (target value : String)
  /-- A `begin` on a line of its own. -/
  | beginBlock
  | condition (cond : String)
  /-- The end of a condition that goes on with another one. -/
  | otherCondition (cond : String)
  /-- The end of a condition that goes on with what runs if it does not hold. -/
  | otherwise
  /-- An `end` on a line of its own. -/
  | endBlock
  | endModule
  deriving DecidableEq, Repr

namespace Form

def text : Form → String
  | .header name => s!"module {name} ("
  | .port direction isRegister top name more =>
    let word := if isRegister then " reg" else ""
    let comma := if more then "," else ""
    directionWord direction ++ word ++ rangeText top ++ " " ++ name ++ comma
  | .endPorts => ");"
  | .declaration isRegister top name =>
    let word := if isRegister then "reg" else "wire"
    word ++ rangeText top ++ " " ++ name ++ ";"
  | .assign target value => s!"assign {target} = {value};"
  | .always sensitivity opens =>
    let closing := if opens then ") begin" else ")"
    "always @(" ++ sensitivity.text ++ closing
  | .blocking target value => s!"{target} = {value};"
  | .nonblocking target value => s!"{target} <= {value};"
  | .beginBlock => "begin"
  | .condition cond => s!"if ({cond}) begin"
  | .otherCondition cond => s!"end else if ({cond}) begin"
  | .otherwise => "end else begin"
  | .endBlock => "end"
  | .endModule => "endmodule"

/-! ## Reading a line -/

/-- What stands between two texts. -/
def between (opening closing : String) (cs : List Char) : Option String :=
  ((opening.toList.isPrefixOf? cs).bind closing.toList.isSuffixOf?).map String.ofList

/-- The highest bit of a range, if there is one, and what follows it. -/
def readRange (cs : List Char) : Option (Option Nat × List Char) :=
  match " [".toList.isPrefixOf? cs with
  | none => some (none, cs)
  | some cs =>
    (":0]".toList.isPrefixOf? (cs.dropWhile Char.isDigit)).map fun rest =>
      (some (Nat.ofDigitChars 10 (cs.takeWhile Char.isDigit) 0), rest)

/-- The name of a port, and whether a comma follows it. -/
def readPortName (cs : List Char) : Option (String × Bool) :=
  match between " " "," cs with
  | some name => some (name, true)
  | none => (between " " "" cs).map (·, false)

/-- Whether a port is a register, and what follows. -/
def readStorage (cs : List Char) : Bool × List Char :=
  match " reg ".toList.isPrefixOf? cs with
  | some rest => (true, ' ' :: rest)
  | none => (false, cs)

def readPort (direction : Direction) (cs : List Char) : Option Form :=
  let (isRegister, cs) := readStorage cs
  (readRange cs).bind fun (top, cs) =>
    (readPortName cs).map fun (name, more) => .port direction isRegister top name more

def readDeclaration (isRegister : Bool) (cs : List Char) : Option Form :=
  (readRange cs).bind fun (top, cs) => (between " " ";" cs).map (.declaration isRegister top)

def readAssign (cs : List Char) : Option Form :=
  (" ".toList.isPrefixOf? cs).bind fun cs =>
    (between " = " ";" (cs.dropWhile isWordChar)).map (.assign (String.ofList (cs.takeWhile isWordChar)))

def readSensitivity (text : String) : Option Sensitivity :=
  if text = "*" then some .inputs else
    match between "posedge " "" text.toList with
    | some clock => some (.trigger ⟨.rising, clock⟩)
    | none => (between "negedge " "" text.toList).map fun clock => .trigger ⟨.falling, clock⟩

def readAlways (cs : List Char) : Option Form :=
  match between " @(" ") begin" cs with
  | some text => (readSensitivity text).map (.always · true)
  | none => ((between " @(" ")" cs).bind readSensitivity).map (.always · false)

def readEnd (cs : List Char) : Option Form :=
  if cs = [] then some .endBlock else
    if cs = " else begin".toList then some .otherwise else
      (between " else if (" ") begin" cs).map .otherCondition

/-- The form of a line that is told by its first word. -/
def readAfter (word : String) (cs : List Char) : Option Form :=
  match word with
  | "" => if cs = ");".toList then some .endPorts else none
  | "module" => (between " " " (" cs).map .header
  | "input" => readPort .input cs
  | "output" => readPort .output cs
  | "inout" => readPort .inout cs
  | "wire" => readDeclaration false cs
  | "reg" => readDeclaration true cs
  | "assign" => readAssign cs
  | "always" => readAlways cs
  | "begin" => if cs = [] then some .beginBlock else none
  | "if" => (between " (" ") begin" cs).map .condition
  | "end" => readEnd cs
  | "endmodule" => if cs = [] then some .endModule else none
  | _ => none

/-- The form of a line with the given first word. -/
def readFrom (word : String) (cs : List Char) : Option Form :=
  match between " = " ";" cs with
  | some value => some (.blocking word value)
  | none =>
    match between " <= " ";" cs with
    | some value => some (.nonblocking word value)
    | none => readAfter word cs

def read (text : String) : Option Form :=
  readFrom (String.ofList (text.toList.takeWhile isWordChar)) (text.toList.dropWhile isWordChar)

/-! ## Parts of lines -/

theorem between_eq_some_iff {opening closing text : String} {cs : List Char} :
    between opening closing cs = some text ↔ cs = opening.toList ++ (text.toList ++ closing.toList) := by
  simp only [between, Option.map_eq_some_iff, Option.bind_eq_some_iff, List.isPrefixOf?_eq_some_iff_append_eq,
    List.isSuffixOf?_eq_some_iff_append_eq]
  constructor
  · rintro ⟨_, ⟨_, rfl, rfl⟩, rfl⟩
    rw [String.toList_ofList]
  · rintro rfl
    exact ⟨text.toList, ⟨_, rfl, rfl⟩, String.ofList_toList⟩

theorem between_append (opening closing text : String) :
    between opening closing (opening.toList ++ (text.toList ++ closing.toList)) = some text :=
  between_eq_some_iff.mpr rfl

theorem between_eq_none {opening closing : String} {cs : List Char}
    (h : ∀ text : String, cs ≠ opening.toList ++ (text.toList ++ closing.toList)) :
    between opening closing cs = none :=
  Option.eq_none_iff_forall_ne_some.mpr fun text htext => h text (between_eq_some_iff.mp htext)

theorem isPrefixOf?_append (xs ys : List Char) : xs.isPrefixOf? (xs ++ ys) = some ys :=
  List.isPrefixOf?_eq_some_iff_append_eq.mpr rfl

/-- The first characters of a kind, if one of another kind follows. -/
theorem span_append {p : Char → Bool} {cs rest : List Char} (hcs : ∀ c ∈ cs, p c = true)
    (hrest : ∀ c, rest.head? = some c → p c = false) :
    (cs ++ rest).takeWhile p = cs ∧ (cs ++ rest).dropWhile p = rest := by
  rw [List.takeWhile_append_of_pos hcs, List.dropWhile_append_of_pos hcs]
  cases rest with
  | nil => simp
  | cons c rest => simp [hrest c rfl]

theorem exists_cons_of_isWord {name : String} (h : IsWord name) :
    ∃ c cs, name.toList = c :: cs ∧ isWordChar c = true := by
  obtain ⟨c, cs, hcs⟩ := List.exists_cons_of_ne_nil h.1
  exact ⟨c, cs, hcs, h.2 c (by simp [hcs])⟩

/-- A range is read back, also if there is none before a name. -/
theorem readRange_rangeText (top : Option Nat) {name : String} (hname : IsWord name) (rest : List Char) :
    readRange ((rangeText top).toList ++ ' ' :: (name.toList ++ rest)) = some (top, ' ' :: (name.toList ++ rest)) := by
  cases top with
  | none =>
    obtain ⟨c, cs, hcs, hc⟩ := exists_cons_of_isWord hname
    have hne : '[' ≠ c := by
      rintro rfl
      cases hc
    simp [readRange, rangeText, hcs, List.isPrefixOf?, hne]
  | some top =>
    have hdigits : ∀ c ∈ (toString top).toList, c.isDigit = true := by
      intro c hc
      rw [Nat.toString_eq_repr, Nat.toList_repr] at hc
      exact Nat.isDigit_of_mem_toDigits (by decide) (by decide) hc
    have hcolon : ∀ c, (":0]".toList ++ ' ' :: (name.toList ++ rest)).head? = some c → c.isDigit = false := by
      intro c hc
      obtain rfl : ':' = c := Option.some.inj hc
      decide
    obtain ⟨htake, hdrop⟩ := span_append hdigits hcolon
    have hvalue : Nat.ofDigitChars 10 (toString top).toList 0 = top := by
      rw [Nat.toString_eq_repr, Nat.toList_repr, Nat.ofDigitChars_toDigits (by decide) (by decide)]
    have htext : (rangeText (some top)).toList ++ ' ' :: (name.toList ++ rest) =
        " [".toList ++ ((toString top).toList ++ (":0]".toList ++ ' ' :: (name.toList ++ rest))) := by
      simp [rangeText, toString]
    rw [htext, readRange, isPrefixOf?_append]
    simp only [htake, hdrop, hvalue, isPrefixOf?_append, Option.map_some]

/-! ## Lines told by their first word -/

/-- No sign that assigns stands here. -/
def Unassigned (cs : List Char) : Prop := ∀ c rest, cs = ' ' :: c :: rest → c ≠ '=' ∧ c ≠ '<'

theorem readFrom_of_unassigned {cs : List Char} (h : Unassigned cs) (word : String) :
    readFrom word cs = readAfter word cs := by
  have hplain : between " = " ";" cs = none := between_eq_none fun _ hcs => (h _ _ hcs).1 rfl
  have hregistered : between " <= " ";" cs = none := between_eq_none fun _ hcs => (h _ _ hcs).2 rfl
  rw [readFrom, hplain, hregistered]

/-- A line is read from the place after its first word on. -/
theorem read_eq_readFrom {text word : String} {cs : List Char} (htext : text.toList = word.toList ++ cs)
    (hword : IsWord word) (hcs : EndsWord cs) : read text = readFrom word cs := by
  obtain ⟨htake, hdrop⟩ := span_append hword.2 hcs
  rw [read, htext, htake, hdrop, String.ofList_toList]

theorem read_keyword {text : String} (word : String) {cs : List Char} (htext : text.toList = word.toList ++ cs)
    (hword : IsWord word) (hcs : EndsWord cs) (hunassigned : Unassigned cs) : read text = readAfter word cs := by
  rw [read_eq_readFrom htext hword hcs, readFrom_of_unassigned hunassigned]

theorem unassigned_cons {c : Char} (hc : c ≠ '=' ∧ c ≠ '<') (cs : List Char) : Unassigned (' ' :: c :: cs) := by
  intro c' rest h
  cases h
  exact hc

theorem unassigned_word {name : String} (hname : IsWord name) (cs : List Char) :
    Unassigned (' ' :: (name.toList ++ cs)) := by
  obtain ⟨c, cs', hcs', hc⟩ := exists_cons_of_isWord hname
  rw [hcs']
  apply unassigned_cons
  constructor
  all_goals
    rintro rfl
    cases hc

theorem unassigned_range {name : String} (hname : IsWord name) (top : Option Nat) (cs : List Char) :
    Unassigned ((rangeText top).toList ++ ' ' :: (name.toList ++ cs)) := by
  cases top with
  | none => exact unassigned_word hname cs
  | some top => simpa [rangeText, toString] using unassigned_cons (by decide) _

theorem endsWord_rangeText (top : Option Nat) (cs : List Char) : EndsWord ((rangeText top).toList ++ ' ' :: cs) := by
  cases top with
  | none => exact endsWord_cons (by decide) cs
  | some top => simpa [rangeText, toString] using endsWord_cons (by decide) _

/-! ## Reading a printed line -/

attribute [local simp] text

theorem read_header {name : String} (hname : IsWord name) : read (header name).text = some (header name) := by
  have htext : (header name).text.toList = "module".toList ++ ' ' :: (name.toList ++ " (".toList) := by
    simp [toString]
  rw [read_keyword "module" htext (by decide) (endsWord_cons (by decide) _) (unassigned_word hname _)]
  exact congrArg (Option.map header) (between_append " " " (" name)

/-- A name that no blank follows is not taken for the word `reg`. -/
theorem isPrefixOf?_reg_eq_none {name : String} (hname : IsWord name) (top : Option Nat) {rest : List Char}
    (hrest : ' ' ∉ rest) :
    " reg ".toList.isPrefixOf? ((rangeText top).toList ++ ' ' :: (name.toList ++ rest)) = none := by
  rw [Option.eq_none_iff_forall_ne_some]
  intro cs hcs
  rw [List.isPrefixOf?_eq_some_iff_append_eq] at hcs
  cases top with
  | none =>
    have hmem : ' ' ∈ name.toList ++ rest := by
      rw [← (List.cons.inj hcs).2]
      exact List.mem_append_left cs (by decide : ' ' ∈ "reg ".toList)
    rcases List.mem_append.mp hmem with hblank | hblank
    · exact absurd (hname.2 ' ' hblank) (by decide)
    · exact hrest hblank
  | some top => simp [rangeText, toString] at hcs

/-- The text of the storage of a port is read back. -/
theorem readStorage_signal {name : String} (hname : IsWord name) (isRegister : Bool) (top : Option Nat)
    {rest : List Char} (hrest : ' ' ∉ rest) :
    readStorage ((if isRegister then " reg" else "").toList ++
      ((rangeText top).toList ++ ' ' :: (name.toList ++ rest))) =
        (isRegister, (rangeText top).toList ++ ' ' :: (name.toList ++ rest)) := by
  unfold readStorage
  cases isRegister with
  | true =>
    obtain ⟨cs, hcs⟩ : ∃ cs, (rangeText top).toList ++ ' ' :: (name.toList ++ rest) = ' ' :: cs := by
      cases top with
      | none => exact ⟨_, rfl⟩
      | some top => exact ⟨_, by simp [rangeText, toString]; rfl⟩
    have hreg : (if true then " reg" else "").toList ++ ' ' :: cs = " reg ".toList ++ cs := by simp
    rw [hcs, hreg, isPrefixOf?_append]
  | false =>
    have hnone := isPrefixOf?_reg_eq_none hname top hrest
    simp only [Bool.false_eq_true, if_false, String.toList_empty, List.nil_append, hnone]

theorem readPortName_name {name : String} (hname : IsWord name) (more : Bool) :
    readPortName (' ' :: (name.toList ++ (if more then "," else "").toList)) = some (name, more) := by
  unfold readPortName
  cases more with
  | true =>
    have hcomma : between " " "," (' ' :: (name.toList ++ ",".toList)) = some name := between_append " " "," name
    simp only [if_true, hcomma]
  | false =>
    have hcomma : between " " "," (' ' :: (name.toList ++ "".toList)) = none := by
      apply between_eq_none
      intro text htext
      have heq : name.toList ++ [] = text.toList ++ [','] := (List.cons.inj htext).2
      have hmem : ',' ∈ name.toList := by
        rw [← List.append_nil name.toList, heq]
        simp
      exact absurd (hname.2 ',' hmem) (by decide)
    have hend : between " " "" (' ' :: (name.toList ++ "".toList)) = some name := between_append " " "" name
    simp only [Bool.false_eq_true, if_false, hcomma, hend, Option.map_some]

theorem read_port (direction : Direction) (isRegister : Bool) (top : Option Nat) {name : String}
    (hname : IsWord name) (more : Bool) :
    read (port direction isRegister top name more).text = some (port direction isRegister top name more) := by
  let word := (if isRegister then " reg" else "").toList
  let comma := (if more then "," else "").toList
  let signal := (rangeText top).toList ++ ' ' :: (name.toList ++ comma)
  have htext : (port direction isRegister top name more).text.toList =
      (directionWord direction).toList ++ (word ++ signal) := by
    simp [word, signal, comma]
  have hcomma : ' ' ∉ comma := by cases more <;> decide
  have hread : readPort direction (word ++ signal) = some (port direction isRegister top name more) := by
    simp only [readPort, readStorage_signal hname isRegister top hcomma, word, signal, readRange_rangeText top hname,
      Option.bind_some, comma, readPortName_name hname more, Option.map_some]
  have hword : IsWord (directionWord direction) := by cases direction <;> decide
  have hplace : EndsWord (word ++ signal) ∧ Unassigned (word ++ signal) := by
    cases isRegister with
    | true =>
      change EndsWord (" reg".toList ++ signal) ∧ Unassigned (" reg".toList ++ signal)
      exact ⟨endsWord_cons (by decide) _, unassigned_cons (by decide) _⟩
    | false => exact ⟨endsWord_rangeText top _, unassigned_range hname top comma⟩
  rw [read_keyword (directionWord direction) htext hword hplace.1 hplace.2, ← hread]
  cases direction <;> rfl

theorem read_declaration (isRegister : Bool) (top : Option Nat) {name : String} (hname : IsWord name) :
    read (declaration isRegister top name).text = some (declaration isRegister top name) := by
  let signal := (rangeText top).toList ++ ' ' :: (name.toList ++ ";".toList)
  have hread : readDeclaration isRegister signal = some (declaration isRegister top name) := by
    unfold readDeclaration
    rw [readRange_rangeText top hname]
    exact congrArg (Option.map (declaration isRegister top)) (between_append " " ";" name)
  have htext : (declaration isRegister top name).text.toList =
      (if isRegister then "reg" else "wire").toList ++ signal := by
    simp [signal]
  have hword : IsWord (if isRegister then "reg" else "wire") := by cases isRegister <;> decide
  rw [read_keyword _ htext hword (endsWord_rangeText top _) (unassigned_range hname top _), ← hread]
  cases isRegister <;> rfl

theorem read_assign {target : String} (htarget : IsWord target) (value : String) :
    read (assign target value).text = some (assign target value) := by
  let rest := " = ".toList ++ (value.toList ++ ";".toList)
  have htext : (assign target value).text.toList = "assign".toList ++ ' ' :: (target.toList ++ rest) := by
    simp [rest, toString]
  have hrest : EndsWord rest := endsWord_cons (by decide) _
  obtain ⟨htake, hdrop⟩ := span_append htarget.2 hrest
  rw [read_keyword "assign" htext (by decide) (endsWord_cons (by decide) _) (unassigned_word htarget _)]
  change readAssign (" ".toList ++ (target.toList ++ rest)) = _
  rw [readAssign, isPrefixOf?_append, Option.bind_some, htake, hdrop, between_append, String.ofList_toList]
  rfl

theorem read_blocking {target : String} (htarget : IsWord target) (value : String) :
    read (blocking target value).text = some (blocking target value) := by
  have htext : (blocking target value).text.toList =
      target.toList ++ (" = ".toList ++ (value.toList ++ ";".toList)) := by
    simp [toString]
  rw [read_eq_readFrom htext htarget (endsWord_cons (by decide) _), readFrom, between_append]

theorem read_nonblocking {target : String} (htarget : IsWord target) (value : String) :
    read (nonblocking target value).text = some (nonblocking target value) := by
  let rest := " <= ".toList ++ (value.toList ++ ";".toList)
  have htext : (nonblocking target value).text.toList = target.toList ++ rest := by
    simp [rest, toString]
  have hplain : between " = " ";" rest = none := by
    apply between_eq_none
    intro text htext
    exact absurd (List.cons.inj (List.cons.inj htext).2).1 (by decide)
  rw [read_eq_readFrom htext htarget (endsWord_cons (by decide) _), readFrom, hplain, between_append]

theorem readSensitivity_trigger (edge : Edge) (clock : String) :
    readSensitivity (Trigger.text ⟨edge, clock⟩) = some (.trigger ⟨edge, clock⟩) := by
  have hstar {word : String} {c : Char} {cs : List Char} (hword : word.toList = c :: cs) (hc : c ≠ '*') :
      word ≠ "*" := by
    rintro rfl
    exact hc (List.cons.inj hword).1.symm
  cases edge with
  | rising =>
    have htext : (Trigger.text ⟨.rising, clock⟩).toList = "posedge ".toList ++ (clock.toList ++ "".toList) := by
      simp [Trigger.text, toString]
    rw [readSensitivity, if_neg (hstar htext (by decide)), htext, between_append]
  | falling =>
    have htext : (Trigger.text ⟨.falling, clock⟩).toList = "negedge ".toList ++ (clock.toList ++ "".toList) := by
      simp [Trigger.text, toString]
    have hrising : between "posedge " "" ("negedge ".toList ++ (clock.toList ++ "".toList)) = none :=
      between_eq_none fun _ heq => absurd (List.cons.inj heq).1 (by decide)
    rw [readSensitivity, if_neg (hstar htext (by decide)), htext, hrising, between_append]
    rfl

theorem readSensitivity_text (sensitivity : Sensitivity) : readSensitivity sensitivity.text = some sensitivity := by
  cases sensitivity with
  | inputs => rfl
  | trigger t => exact readSensitivity_trigger t.edge t.clock

theorem read_always (sensitivity : Sensitivity) (opens : Bool) :
    read (always sensitivity opens).text = some (always sensitivity opens) := by
  let closing := if opens then ") begin" else ")"
  let cs := " @(".toList ++ (sensitivity.text.toList ++ closing.toList)
  have htext : (always sensitivity opens).text.toList = "always".toList ++ cs := by
    simp [cs, closing]
  have hunassigned : Unassigned cs := unassigned_cons (by decide : '@' ≠ '=' ∧ '@' ≠ '<') _
  rw [read_keyword "always" htext (by decide) (endsWord_cons (by decide : isWordChar ' ' = false) _) hunassigned]
  change readAlways cs = _
  cases opens with
  | true =>
    have hbetween : between " @(" ") begin" cs = some sensitivity.text := between_append " @(" ") begin" _
    simp only [readAlways, hbetween, readSensitivity_text, Option.map_some]
  | false =>
    have hopens : between " @(" ") begin" cs = none := by
      apply between_eq_none
      intro text heq
      have hreverse := congrArg List.reverse heq
      simp [cs, closing] at hreverse
    have hbetween : between " @(" ")" cs = some sensitivity.text := between_append " @(" ")" _
    simp only [readAlways, hopens, hbetween, Option.bind_some, readSensitivity_text, Option.map_some]

theorem read_condition (cond : String) : read (condition cond).text = some (condition cond) := by
  have htext : (condition cond).text.toList = "if".toList ++ (" (".toList ++ (cond.toList ++ ") begin".toList)) := by
    simp [toString]
  have hunassigned : Unassigned (" (".toList ++ (cond.toList ++ ") begin".toList)) :=
    unassigned_cons (by decide : '(' ≠ '=' ∧ '(' ≠ '<') _
  rw [read_keyword "if" htext (by decide) (endsWord_cons (by decide : isWordChar ' ' = false) _) hunassigned]
  exact congrArg (Option.map condition) (between_append " (" ") begin" cond)

theorem read_otherCondition (cond : String) : read (otherCondition cond).text = some (otherCondition cond) := by
  let cs := " else if (".toList ++ (cond.toList ++ ") begin".toList)
  have htext : (otherCondition cond).text.toList = "end".toList ++ cs := by
    simp [cs, toString]
  have hunassigned : Unassigned cs := unassigned_cons (by decide : 'e' ≠ '=' ∧ 'e' ≠ '<') _
  have hne : cs ≠ [] := List.cons_ne_nil _ _
  have hotherwise : cs ≠ " else begin".toList := by
    intro heq
    have hsixth := congrArg (List.drop 6) heq
    exact absurd (List.cons.inj hsixth).1 (by decide)
  rw [read_keyword "end" htext (by decide) (endsWord_cons (by decide : isWordChar ' ' = false) _) hunassigned]
  change readEnd cs = _
  rw [readEnd, if_neg hne, if_neg hotherwise, between_append]
  rfl

/-! ## Forms in a line -/

/-- A text on a single line, without tabs. -/
def IsFlat (text : String) : Prop := ∀ c ∈ text.toList, c ≠ '\n' ∧ c ≠ '\t'

instance (text : String) : Decidable (IsFlat text) := List.decidableBAll _ text.toList

/-- The names of a form are words, and its texts are flat. -/
def Legible : Form → Prop
  | .header name | .port _ _ _ name _ | .declaration _ _ name => IsWord name
  | .assign target value | .blocking target value | .nonblocking target value => IsWord target ∧ IsFlat value
  | .always (.trigger t) _ => IsWord t.clock
  | .condition cond | .otherCondition cond => IsFlat cond
  | _ => True

/-- A line is read as the form that it has. -/
theorem read_text {f : Form} (h : f.Legible) : read f.text = some f := by
  cases f with
  | header name => exact read_header h
  | port direction isRegister top name more => exact read_port direction isRegister top h more
  | declaration isRegister top name => exact read_declaration isRegister top h
  | assign target value => exact read_assign h.1 value
  | always sensitivity opens => exact read_always sensitivity opens
  | blocking target value => exact read_blocking h.1 value
  | nonblocking target value => exact read_nonblocking h.1 value
  | condition cond => exact read_condition cond
  | otherCondition cond => exact read_otherCondition cond
  | endPorts | beginBlock | otherwise | endBlock | endModule => decide

end Form

end Gateware.Verilog

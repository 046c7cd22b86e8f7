import Mathlib.Data.List.Forall2
import PolyCalc.CommandLine.Run

/-!
# Lines and their answers

The input of a session is split after each newline, and each line is answered by itself: with
nothing if it is blank, with a complaint if it is not UTF-8, and otherwise with what the command
prints for the trimmed line as its one expression (`Answers`). A session prints these answers in
order, each after a prompt, and a last prompt (`run_interactive`).

A session may also keep a buffer, clear it before each line and go on from whatever was left in it
when a line could not be decoded (`Converses`). Nothing of that shows: such a session prints the
same, whatever was in the buffer before (`converses_iff`).
-/

namespace PolyCalc.CommandLine

/-- An expression is either answered on the output or refused on the error output, and a session
replies with that text. -/
theorem runOnce_cases (expression : String) :
    (∃ output, runOnce expression = ⟨0, output, ""⟩ ∧ Session.reply expression = output) ∨
    ∃ complaint, runOnce expression = ⟨1, "", complaint⟩ ∧
      Session.reply expression = complaint := by
  unfold runOnce Session.reply
  cases answer expression with
  | ok text => exact Or.inl ⟨_, rfl, rfl⟩
  | error message => exact Or.inr ⟨_, rfl, rfl⟩

namespace Session

/-! ## Lines -/

/-- Cuts the input after each newline. -/
def lines : List UInt8 → List (List UInt8)
  | [] => []
  | b :: bs =>
      if b = newline then [b] :: lines bs
      else
        match lines bs with
        | [] => [[b]]
        | line :: rest => (b :: line) :: rest

/-- How an input splits into lines. A line ends with its newline and has no other; what comes after
the last newline is one more line, unless it is empty. -/
inductive Splits : (input : List UInt8) → (lines : List (List UInt8)) → Prop
  | nothing : Splits [] []
  | unterminated {line : List UInt8} (hne : line ≠ []) (hline : newline ∉ line) :
      Splits line [line]
  | line {body rest : List UInt8} {ls : List (List UInt8)} (hbody : newline ∉ body)
      (hrest : Splits rest ls) : Splits (body ++ newline :: rest) ((body ++ [newline]) :: ls)

theorem splits_lines : ∀ input : List UInt8, Splits input (lines input)
  | [] => .nothing
  | b :: bs => by
      have hrest := splits_lines bs
      unfold lines
      split
      · next hb =>
          subst hb
          have hempty : newline ∉ ([] : List UInt8) := List.not_mem_nil
          exact .line hempty hrest
      · next hb =>
          have hcons : ∀ {line}, newline ∉ line → newline ∉ b :: line := fun h =>
            List.not_mem_cons_of_ne_of_not_mem (Ne.symm hb) h
          generalize lines bs = ls at hrest
          cases hrest with
          | nothing => exact .unterminated (List.cons_ne_nil _ _) (hcons List.not_mem_nil)
          | unterminated _ hline => exact .unterminated (List.cons_ne_nil _ _) (hcons hline)
          | line hbody hrest => exact .line (hcons hbody) hrest

theorem lines_append_newline {body : List UInt8} (h : newline ∉ body) (rest : List UInt8) :
    lines (body ++ newline :: rest) = (body ++ [newline]) :: lines rest := by
  induction body with
  | nil => simp [lines]
  | cons b body ih =>
      obtain ⟨hb, hbody⟩ := List.ne_and_not_mem_of_not_mem_cons h
      rw [List.cons_append, lines, if_neg (Ne.symm hb), ih hbody]
      rfl

theorem lines_of_no_newline {line : List UInt8} (hne : line ≠ []) (h : newline ∉ line) :
    lines line = [line] := by
  induction line with
  | nil => exact absurd rfl hne
  | cons b line ih =>
      obtain ⟨hb, hline⟩ := List.ne_and_not_mem_of_not_mem_cons h
      rw [lines, if_neg (Ne.symm hb)]
      cases line with
      | nil => rfl
      | cons c line => rw [ih (List.cons_ne_nil _ _) hline]

/-- There is one way to split an input. -/
theorem splits_iff {input : List UInt8} {ls : List (List UInt8)} :
    Splits input ls ↔ ls = lines input := by
  constructor
  · intro h
    induction h with
    | nothing => rfl
    | unterminated hne hline => exact (lines_of_no_newline hne hline).symm
    | line hbody _ ih => rw [lines_append_newline hbody, ih]
  · rintro rfl
    exact splits_lines input

/-! ## Answers -/

/-- The answer to a line, which is nothing or a complaint or what the command prints for the
trimmed line: its output on success and its error output on failure. -/
inductive Answers (line : List UInt8) : (answer : String) → Prop
  | undecodable (hdecode : String.fromUTF8? ⟨line.toArray⟩ = none) :
      Answers line "stream did not contain valid UTF-8\n"
  | blank {text : String} (hdecode : String.fromUTF8? ⟨line.toArray⟩ = some text)
      (htrim : Text.trim text.toList = []) : Answers line ""
  | value {text expression output : String}
      (hdecode : String.fromUTF8? ⟨line.toArray⟩ = some text)
      (htrim : Text.trim text.toList = expression.toList) (hne : expression ≠ "")
      (hrun : runOnce expression = ⟨0, output, ""⟩) : Answers line output
  | failure {text expression complaint : String}
      (hdecode : String.fromUTF8? ⟨line.toArray⟩ = some text)
      (htrim : Text.trim text.toList = expression.toList) (hne : expression ≠ "")
      (hrun : runOnce expression = ⟨1, "", complaint⟩) : Answers line complaint

theorem response_of_undecodable {line : List UInt8}
    (hdecode : String.fromUTF8? ⟨line.toArray⟩ = none) :
    response line = "stream did not contain valid UTF-8\n" := by
  rw [response, hdecode]

theorem response_of_blank {line : List UInt8} {text : String}
    (hdecode : String.fromUTF8? ⟨line.toArray⟩ = some text)
    (htrim : Text.trim text.toList = []) : response line = "" := by
  simp only [response, hdecode, htrim]

theorem response_of_expression {line : List UInt8} {text expression : String}
    (hdecode : String.fromUTF8? ⟨line.toArray⟩ = some text)
    (htrim : Text.trim text.toList = expression.toList) (hne : expression ≠ "") :
    response line = reply expression := by
  simp only [response, hdecode, htrim]
  cases hcs : expression.toList with
  | nil => exact absurd (String.toList_eq_nil_iff.mp hcs) hne
  | cons c cs =>
      change reply (String.ofList (c :: cs)) = _
      rw [← hcs, String.ofList_toList]

theorem trim_cases (text : String) : Text.trim text.toList = [] ∨
    ∃ expression : String, Text.trim text.toList = expression.toList ∧ expression ≠ "" := by
  cases htrim : Text.trim text.toList with
  | nil => exact Or.inl rfl
  | cons c cs =>
      refine Or.inr ⟨String.ofList (c :: cs), String.toList_ofList.symm, fun h => ?_⟩
      rw [← String.toList_eq_nil_iff, String.toList_ofList] at h
      cases h

theorem answers_response (line : List UInt8) : Answers line (response line) := by
  cases hdecode : String.fromUTF8? ⟨line.toArray⟩ with
  | none =>
      rw [response_of_undecodable hdecode]
      exact .undecodable hdecode
  | some text =>
      rcases trim_cases text with htrim | ⟨expression, htrim, hne⟩
      · rw [response_of_blank hdecode htrim]
        exact .blank hdecode htrim
      · rw [response_of_expression hdecode htrim hne]
        rcases runOnce_cases expression with ⟨_, hrun, hreply⟩ | ⟨_, hrun, hreply⟩
        · rw [hreply]
          exact .value hdecode htrim hne hrun
        · rw [hreply]
          exact .failure hdecode htrim hne hrun

/-- Each line has one answer. -/
theorem answers_iff {line : List UInt8} {answer : String} :
    Answers line answer ↔ answer = response line := by
  constructor
  · intro h
    cases h with
    | undecodable hdecode => exact (response_of_undecodable hdecode).symm
    | blank hdecode htrim => exact (response_of_blank hdecode htrim).symm
    | @value text expression _ hdecode htrim hne hrun =>
        rw [response_of_expression hdecode htrim hne]
        rcases runOnce_cases expression with ⟨_, hrun', hreply⟩ | ⟨_, hrun', -⟩
        · rw [hreply]
          exact congrArg Outcome.stdout (hrun.symm.trans hrun')
        · cases congrArg Outcome.exitCode (hrun.symm.trans hrun')
    | @failure text expression _ hdecode htrim hne hrun =>
        rw [response_of_expression hdecode htrim hne]
        rcases runOnce_cases expression with ⟨_, hrun', -⟩ | ⟨_, hrun', hreply⟩
        · cases congrArg Outcome.exitCode (hrun.symm.trans hrun')
        · rw [hreply]
          exact congrArg Outcome.stderr (hrun.symm.trans hrun')
  · rintro rfl
    exact answers_response line

/-! ## Sessions -/

/-- What is printed in all after the greeting. -/
def exchange (answers : List String) : String :=
  String.join (answers.map fun answer => prompt ++ answer) ++ prompt ++ "\n"

@[simp] theorem exchange_nil : exchange [] = prompt ++ "\n" := rfl

@[simp] theorem exchange_cons (answer : String) (answers : List String) :
    exchange (answer :: answers) = prompt ++ answer ++ exchange answers := by
  simp only [exchange, List.map_cons, String.join_cons, String.append_assoc]

/-- Bytes before the end of a line are held back. -/
theorem conversation_append {body : List UInt8} (h : newline ∉ body) (held rest : List UInt8) :
    conversation held (body ++ rest) = conversation (body.reverse ++ held) rest := by
  induction body generalizing held with
  | nil => rfl
  | cons b body ih =>
      obtain ⟨hb, hbody⟩ := List.ne_and_not_mem_of_not_mem_cons h
      rw [List.cons_append, conversation, if_neg (Ne.symm hb), ih hbody]
      simp

theorem prompt_conversation {input : List UInt8} {ls : List (List UInt8)}
    (h : Splits input ls) : prompt ++ conversation [] input = exchange (ls.map response) := by
  induction h with
  | nothing => rfl
  | @unterminated line hne hline =>
      have hheld := conversation_append hline [] []
      obtain ⟨b, held, hb⟩ := List.exists_cons_of_ne_nil (List.reverse_ne_nil_iff.mpr hne)
      rw [List.append_nil, List.append_nil, hb, conversation, ← hb, List.reverse_reverse] at hheld
      simp [hheld, String.append_assoc]
  | @line body rest ls hbody _ ih =>
      rw [conversation_append hbody, List.append_nil, conversation, if_pos rfl,
        List.reverse_cons, List.reverse_reverse, List.map_cons, exchange_cons, ← ih]
      simp only [String.append_assoc]

/-! ## Sessions with a buffer -/

/-- How the reading of a line turns out. -/
inductive Reading where
  | ended
  | undecodable
  | decoded
  deriving DecidableEq

/-- The bytes up to the first newline and with it, and those after it. -/
def takeLine : List UInt8 → List UInt8 × List UInt8
  | [] => ([], [])
  | b :: bs =>
      if b = newline then ([b], bs)
      else (b :: (takeLine bs).1, (takeLine bs).2)

/-- Reads one line and appends it to a buffer. A line that is not UTF-8 is gone from the input as
well, but the buffer stays as it was. -/
def readLine (buffer : String) (input : List UInt8) : Reading × String × List UInt8 :=
  match takeLine input with
  | ([], rest) => (.ended, buffer, rest)
  | (b :: bs, rest) =>
      match String.fromUTF8? ⟨(b :: bs).toArray⟩ with
      | none => (.undecodable, buffer, rest)
      | some text => (.decoded, buffer ++ text, rest)

/-- What a session prints that reads line by line into a buffer. Before each line it prints a
prompt and clears the buffer. -/
inductive Converses : (buffer : String) → (input : List UInt8) → (printed : String) → Prop
  | ended {buffer after : String} {input rest : List UInt8}
      (hread : readLine "" input = (.ended, after, rest)) :
      Converses buffer input (prompt ++ "\n")
  | undecodable {buffer after printed : String} {input rest : List UInt8}
      (hread : readLine "" input = (.undecodable, after, rest))
      (hrest : Converses after rest printed) :
      Converses buffer input (prompt ++ "stream did not contain valid UTF-8\n" ++ printed)
  | blank {buffer after printed : String} {input rest : List UInt8}
      (hread : readLine "" input = (.decoded, after, rest))
      (htrim : Text.trim after.toList = []) (hrest : Converses after rest printed) :
      Converses buffer input (prompt ++ printed)
  | expression {buffer after expression printed : String} {input rest : List UInt8}
      (hread : readLine "" input = (.decoded, after, rest))
      (htrim : Text.trim after.toList = expression.toList) (hne : expression ≠ "")
      (hrest : Converses after rest printed) :
      Converses buffer input (prompt ++ reply expression ++ printed)

theorem takeLine_append_newline {body : List UInt8} (h : newline ∉ body) (rest : List UInt8) :
    takeLine (body ++ newline :: rest) = (body ++ [newline], rest) := by
  induction body with
  | nil => rfl
  | cons b body ih =>
      obtain ⟨hb, hbody⟩ := List.ne_and_not_mem_of_not_mem_cons h
      rw [List.cons_append, takeLine, if_neg (Ne.symm hb), ih hbody]
      rfl

theorem takeLine_of_no_newline {line : List UInt8} (h : newline ∉ line) :
    takeLine line = (line, []) := by
  induction line with
  | nil => rfl
  | cons b line ih =>
      obtain ⟨hb, hline⟩ := List.ne_and_not_mem_of_not_mem_cons h
      rw [takeLine, if_neg (Ne.symm hb), ih hline]

section Turn

variable {input line rest : List UInt8} (htake : takeLine input = (line, rest)) (hne : line ≠ [])

include htake hne

theorem readLine_of_undecodable (hdecode : String.fromUTF8? ⟨line.toArray⟩ = none)
    (buffer : String) : readLine buffer input = (.undecodable, buffer, rest) := by
  obtain ⟨b, bs, rfl⟩ := List.exists_cons_of_ne_nil hne
  simp only [readLine, htake, hdecode]

theorem readLine_of_decoded {text : String}
    (hdecode : String.fromUTF8? ⟨line.toArray⟩ = some text) (buffer : String) :
    readLine buffer input = (.decoded, buffer ++ text, rest) := by
  obtain ⟨b, bs, rfl⟩ := List.exists_cons_of_ne_nil hne
  simp only [readLine, htake, hdecode]

/-- One turn. It prints the answer to its line, whichever way it goes, and the turns after it do
not see what it leaves in the buffer. -/
theorem converses_turn {later : String}
    (hlater : ∀ {buffer printed}, Converses buffer rest printed ↔ printed = later)
    {buffer printed : String} :
    Converses buffer input printed ↔ printed = prompt ++ response line ++ later := by
  cases hdecode : String.fromUTF8? ⟨line.toArray⟩ with
  | none =>
      have hline := readLine_of_undecodable htake hne hdecode ""
      rw [response_of_undecodable hdecode]
      constructor
      · intro h
        cases h with
        | ended hread => cases hline.symm.trans hread
        | undecodable hread hrest =>
            cases hline.symm.trans hread
            rw [hlater.mp hrest]
        | blank hread => cases hline.symm.trans hread
        | expression hread => cases hline.symm.trans hread
      · rintro rfl
        exact .undecodable hline (hlater.mpr rfl)
  | some text =>
      have hline := readLine_of_decoded htake hne hdecode ""
      rw [String.empty_append] at hline
      constructor
      · intro h
        cases h with
        | ended hread => cases hline.symm.trans hread
        | undecodable hread => cases hline.symm.trans hread
        | blank hread htrim hrest =>
            cases hline.symm.trans hread
            rw [hlater.mp hrest, response_of_blank hdecode htrim, String.append_empty]
        | expression hread htrim hne hrest =>
            cases hline.symm.trans hread
            rw [hlater.mp hrest, response_of_expression hdecode htrim hne]
      · rintro rfl
        rcases trim_cases text with htrim | ⟨expression, htrim, hexpression⟩
        · rw [response_of_blank hdecode htrim, String.append_empty]
          exact .blank hline htrim (hlater.mpr rfl)
        · rw [response_of_expression hdecode htrim hexpression]
          exact .expression hline htrim hexpression (hlater.mpr rfl)

end Turn

theorem converses_nil {buffer printed : String} :
    Converses buffer [] printed ↔ printed = exchange [] := by
  constructor
  · intro h
    cases h with
    | ended => rfl
    | undecodable hread => cases hread
    | blank hread => cases hread
    | expression hread => cases hread
  · rintro rfl
    exact .ended rfl

/-- A session prints the same with any buffer. -/
theorem converses_iff {input : List UInt8} {ls : List (List UInt8)} (h : Splits input ls)
    {buffer printed : String} :
    Converses buffer input printed ↔ printed = exchange (ls.map response) := by
  induction h generalizing buffer printed with
  | nothing => exact converses_nil
  | unterminated hne hline =>
      rw [List.map_singleton, exchange_cons]
      exact converses_turn (takeLine_of_no_newline hline) hne converses_nil
  | line hbody _ ih =>
      rw [List.map_cons, exchange_cons]
      exact converses_turn (takeLine_append_newline hbody _) (by simp) ih

end Session

/-- **Independent lines.** Every input splits into lines in one way, and every line has one answer,
which depends on nothing but the line. An interactive session always succeeds; it prints its
greeting and, line by line, a prompt and the answer, then a prompt and a line end. A session that
reads its lines into a buffer prints the same after the greeting, whatever the buffer holds. -/
theorem run_interactive {arguments : List String}
    (h : Request.ofArguments arguments = some .interact) (input : List UInt8) :
    (∃! ls, Session.Splits input ls) ∧ (∀ line, ∃! answer, Session.Answers line answer) ∧
    ∃ ls answers, Session.Splits input ls ∧ List.Forall₂ Session.Answers ls answers ∧
      (run arguments input).exitCode = 0 ∧
      (run arguments input).stdout = Session.greeting ++ Session.exchange answers ∧
      ∀ buffer printed, Session.Converses buffer input printed ↔
        printed = Session.exchange answers := by
  have hsplits := Session.splits_lines input
  have hrun : run arguments input = ⟨0, Session.transcript input, ""⟩ := by
    rw [run, h]
  refine ⟨⟨_, hsplits, fun _ => Session.splits_iff.mp⟩,
    fun line => ⟨_, Session.answers_response line, fun _ => Session.answers_iff.mp⟩,
    _, _, hsplits, ?_, congrArg Outcome.exitCode hrun, ?_,
    fun _ _ => Session.converses_iff hsplits⟩
  · rw [List.forall₂_map_right_iff, List.forall₂_same]
    exact fun line _ => Session.answers_response line
  · rw [hrun, ← Session.prompt_conversation hsplits, ← String.append_assoc]
    rfl

/-- A session with a value, an error, a blank line, bytes that are not UTF-8 and a last line
without a newline. -/
theorem run_interactive_of_lines :
    let input := "x+x\n2/x\n \n".toUTF8.toList ++ [255, 10] ++ "2^3 ".toUTF8.toList
    Request.ofArguments ["-v"] = some .interact ∧
      (∃ ls answers, Session.Splits input ls ∧ List.Forall₂ Session.Answers ls answers ∧
        (run ["-v"] input).exitCode = 0 ∧
        (run ["-v"] input).stdout = Session.greeting ++ Session.exchange answers) ∧
      (run ["-v"] input).stdout = "Welcome to the no-division calculator!\n>2x\n" ++
        ">division is not supported (position 1)\n" ++
        ">>stream did not contain valid UTF-8\n>8\n>\n" := by
  intro input
  have hrequest : Request.ofArguments ["-v"] = some .interact := by decide
  obtain ⟨-, -, ls, answers, hls, hanswers, hexit, hout, -⟩ := run_interactive hrequest input
  exact ⟨hrequest, ⟨ls, answers, hls, hanswers, hexit, hout⟩, by decide +kernel⟩

end PolyCalc.CommandLine

import FrameBasic.Compiler
import FrameBasic.Proofs.Reader.AnyCase
import FrameBasic.Proofs.Reader.Program
import FrameBasic.Proofs.Script.Relabel
import FrameBasic.Proofs.Token.Unused

/-!
# Scripts and unused commands

The table of commands is asked by the tokens, by the reader and by the script, and each asks only
for commands that the program names.  The script also takes the whole set of commands that must be
awaited, but it looks in it for nothing else.  So a description that is stored under a name that no
word of the text spells leaves everything as it was, but for what is wrong with the table itself.

## Main definitions

* `Expr.Avoids`, `Stmt.Avoids` — an expression, or a statement by itself, does not call a command.

## Main results

* `Script.ofProgram_insert` — the script of a program that does not call the command.
* `compile_insert_unused` — **unused commands have no influence**.
-/

namespace FrameBasic

/-! ### Calls of a command -/

/-- The expression does not call the command, in it or below. -/
def Expr.Avoids (key : String) (e : Expr) : Prop :=
  .command key ∉ e.calls

/-- The expressions of the statement itself do not call the command. -/
def Stmt.Avoids (key : String) (s : Stmt) : Prop :=
  ∀ e ∈ s.ownExprs, e.Avoids key

/-- The script of a program that does not call the command is the same without it. -/
theorem Script.ofProgram_insert {commands : CommandTable} {name : String} {d : Descriptor}
    {p : Program} (h : ∀ t ∈ stmtsWithin true p.stmts, t.Avoids (Text.lower name)) :
    ofProgram (commands.insert name d) p = ofProgram commands p := by
  have hfits : ∀ t ∈ stmtsWithin true p.stmts, t.Fits (· ≠ Text.lower name) .keep := by
    refine fun t ht => ⟨fun e he key hkey => ?_, fun _ => rfl⟩
    rintro rfl
    exact h t ht e he hkey
  have hget : ∀ other, Text.lower other ≠ Text.lower name →
      (commands.insert name d).get? other = commands.get? other :=
    fun _ => CommandTable.get?_insert_of_ne
  have hscript := ofProgram_relabel (K := (· ≠ Text.lower name)) hget
    (fun _ => CommandTable.contains_suspendingNames_insert) hfits
  have hdata : Relabel.keep.data = id := rfl
  rw [Program.relabel, relabelStmts_keep, hdata, List.map_id] at hscript
  exact hscript

/-! ### From the text to the script -/

section Source

variable {commands : CommandTable} {text name : String} {d : Descriptor}
  (h : ∀ word ∈ words text, Name.fold word ≠ Text.lower name)
include h

/-- A command among the tokens is another one. -/
theorem lower_ne_of_calls {called : String}
    (hcalls : (Parser.Input.ofTokens commands (tokens commands text)).Calls called) :
    Text.lower called ≠ Text.lower name := by
  obtain ⟨token, hmem, hkind, rfl⟩ := hcalls
  have htoken : token ∈ tokens commands text := (List.mem_filter.mp (List.mem_toArray.mp hmem)).1
  obtain ⟨word, hword, htext⟩ := exists_word_of_command htoken hkind
  rw [htext, Name.fold, Text.lower_lower]
  exact h word hword

/-- The same program is read. -/
theorem Program.parse_insert :
    Program.parse (commands.insert name d) (tokens (commands.insert name d) text) =
      Program.parse commands (tokens commands text) := by
  have htokens : tokens (commands.insert name d) text = tokens commands text := by
    rw [tokens, tokens, events_insert h]
  rw [htokens]
  refine Program.parse_congr fun i token htoken hkind => ?_
  have hmem := Array.mem_of_getElem? htoken
  exact CommandTable.get?_insert_of_ne (lower_ne_of_calls h ⟨token, hmem, hkind, rfl⟩)

/-- The program does not call the command. -/
theorem Program.parse_avoids :
    ∀ t ∈ stmtsWithin true (Program.parse commands (tokens commands text)).program.stmts,
      t.Avoids (Text.lower name) := by
  intro t ht e he hmem
  obtain ⟨s, hs, ht⟩ := mem_stmtsWithin.mp ht
  obtain ⟨sub, hsub, hcalls⟩ := List.mem_filterMap.mp hmem
  have hground := (Program.parse_grounded commands (tokens commands text) s hs t ht).2 e he sub hsub
  cases sub with
  | command info called args =>
    have heq : Text.lower called = Text.lower name := by simpa [Expr.callee?] using hcalls
    exact lower_ne_of_calls h hground heq
  | _ => simp [Expr.callee?] at hcalls

end Source

/-- When no word of the text with its files, without its type marker and in small letters, is the
name of a command, then storing a description under this name leaves the script, the program and the
errors of the text as they are.  Only what is wrong with the table itself may change. -/
theorem compile_insert_unused (commands : CommandTable) (library : Library) (source name : String)
    (d : Descriptor)
    (h : ∀ word ∈ words (library.expand source).text, Name.fold word ≠ Text.lower name) :
    let before := compile commands library source
    let after := compile (commands.insert name d) library source
    after.code = before.code ∧ after.parsed = before.parsed ∧
      ∃ others, before.diagnostics = commands.faults.map .ofTable ++ others ∧
        after.diagnostics = (commands.insert name d).faults.map .ofTable ++ others := by
  intro before after
  have hparsed : after.parsed = before.parsed := Program.parse_insert h
  have hscript : after.script = before.script := by
    have hprogram : after.script = Script.ofProgram (commands.insert name d) after.parsed.program :=
      rfl
    rw [hprogram, hparsed]
    exact Script.ofProgram_insert (Program.parse_avoids h)
  have hlexical : lexicalErrors (commands.insert name d) (library.expand source).text =
      lexicalErrors commands (library.expand source).text := by
    rw [lexicalErrors, lexicalErrors, events_insert h]
  refine ⟨congrArg Script.render hscript, hparsed, ?_⟩
  refine ⟨before.expansion.errors.map .ofInclude ++
    ((lexicalErrors commands (library.expand source).text).map .ofLexical ++
      before.parsed.errors.map .ofParse), ?_, ?_⟩
  · simp only [before, compile, List.append_assoc]
  · rw [← hparsed, ← hlexical]
    simp only [before, after, compile, List.append_assoc]

/-- A program waits through a function of a file; a suspending command without a target is stored
under a name that begins with a word of it. -/
theorem compile_insert_unused_suspending :
    let commands := CommandTable.ofList [("WaitKey", { category := .call, suspends := true })]
    let library := Library.memory [("wait.bb", "Function Pause()\nWaitKey\nEnd Function")]
    let source := "Include \"wait.bb\"\nPause()\npaused$ = 1"
    let d : Descriptor := { category := .call, suspends := true }
    let before := compile commands library source
    let after := compile (commands.insert "PAUSED2" d) library source
    (∀ word ∈ words (library.expand source).text, Name.fold word ≠ Text.lower "PAUSED2") ∧
      after.code = before.code ∧ after.parsed = before.parsed ∧
      ∃ others, before.diagnostics = commands.faults.map .ofTable ++ others ∧
        after.diagnostics = (commands.insert "PAUSED2" d).faults.map .ofTable ++ others := by
  intro commands library source d before after
  have hwords : ∀ word ∈ words (library.expand source).text,
      Name.fold word ≠ Text.lower "PAUSED2" := by
    decide +kernel
  exact ⟨hwords, compile_insert_unused commands library source "PAUSED2" d hwords⟩

end FrameBasic

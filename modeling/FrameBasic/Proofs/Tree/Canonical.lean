import FrameBasic.Proofs.Token.Word
import FrameBasic.Proofs.Tree.Spelling

/-!
# Programs in canonical spelling

The programs that are made of assignments, commands, branches and loops, as trees that carry the
spelling of their names and numbers.  Each of them has a text, with one statement or clause to a line
and every block closed by its own word, and a tree of statements.

A name carries the proof that it is no reserved word and no command, and the expression of a clause
the proof that its operators are nested by precedence; so every tree of this kind can be written
down.

## Main definitions

* `Canonical.Name`, `Canonical.CommandName`, `Canonical.Literal` — what is spelled by one word.
* `Canonical.Formula`, `Canonical.Header` — the expressions of a clause.
* `Canonical.Node`, `Canonical.Block` — statements and blocks.
* `Canonical.Program` — types and statements.
* `Canonical.Program.source`, `Canonical.Program.tree` — the text and the tree of a program.

## Main results

* `Keyword.find?_spelling` — the spelling of a reserved word is read as that word.
-/

namespace FrameBasic

/-! ### Reserved words -/

namespace Keyword

/-- The letters of a reserved word, in small letters, as one number. -/
def code (word : Keyword) : Nat :=
  (word.spelling.toList.map Char.toLower).foldl (fun n c => n * 256 + c.toNat) 0

theorem code_inj : ∀ word ∈ all, ∀ other ∈ all, code other = code word → other = word := by
  decide +kernel

/-- The spelling of a reserved word is read as that word. -/
theorem find?_spelling (word : Keyword) : find? word.spelling = some word := by
  have hinj : ∀ other, Text.sameLetters other.spelling word.spelling = true → other = word := by
    intro other hsame
    have hlower : Text.lower other.spelling = Text.lower word.spelling := beq_iff_eq.mp hsame
    have hchars := congrArg String.toList hlower
    rw [Text.toList_lower, Text.toList_lower] at hchars
    refine code_inj word (mem_all word) other (mem_all other) ?_
    rw [code, code, hchars]
  unfold find?
  cases hfind : all.find? fun keyword => Text.sameLetters keyword.spelling word.spelling with
  | none =>
    have hnone := List.find?_eq_none.mp hfind word (mem_all word)
    exact absurd (beq_iff_eq.mpr rfl) hnone
  | some found =>
    have hfound := List.find?_some hfind
    exact congrArg some (hinj found hfound)

end Keyword

/-! ### Words of the language -/

namespace Word

variable {commands : CommandTable}

/-- A word in letters. -/
def letters (text : String) (h : Shape.word.Whole text.toList) : Word commands where
  chars := text.toList
  shape := .word
  kind := (classifyWord commands text).1
  text := (classifyWord commands text).2
  lexeme := longest?_of_word h
  closed := ⟨by decide, by decide, fun h => nomatch h⟩
  classified := by rw [classify, String.ofList_toList]

theorem whole_spelling (word : Keyword) : Shape.word.Whole word.spelling.toList := by
  cases word <;> decide +kernel

/-- A reserved word. -/
def keyword (word : Keyword) : Word commands :=
  letters word.spelling (whole_spelling word)

@[simp] theorem kind_keyword (word : Keyword) :
    (keyword word : Word commands).kind = .keyword word := by
  have hplain : (Name.split word.spelling).2.isNone = true := by
    cases word <;> decide +kernel
  have hfind := Keyword.find?_spelling word
  show (classifyWord commands word.spelling).1 = _
  simp only [classifyWord, hplain, hfind, if_true]

/-- The marks that stand inside a line. -/
def lineMarks : List Kind :=
  marks.erase .newline

theorem longest?_markText : ∀ kind ∈ lineMarks,
    longest? (markText kind) = some (.mark kind, (markText kind).length) := by
  decide +kernel

/-- A mark. -/
def mark (kind : Kind) (h : kind ∈ lineMarks) : Word commands where
  chars := markText kind
  shape := .mark kind
  kind := kind
  text := String.ofList (markText kind)
  lexeme := longest?_markText kind h
  closed := ⟨(fun h => nomatch h), (fun h => nomatch h), (fun h => nomatch h)⟩
  classified := rfl

/-- The word of an operator between two operands. -/
def operator : BinaryOp → Word commands
  | .power => mark .caret (by decide)
  | .multiply => mark .star (by decide)
  | .divide => mark .slash (by decide)
  | .modulo => keyword .mod
  | .add => mark .plus (by decide)
  | .subtract => mark .minus (by decide)
  | .shiftLeft => keyword .shl
  | .shiftRight => keyword .shr
  | .shiftArith => keyword .sar
  | .equal => mark .equals (by decide)
  | .notEqual => mark .notEquals (by decide)
  | .lessThan => mark .lessThan (by decide)
  | .lessEqual => mark .lessEquals (by decide)
  | .greaterThan => mark .greaterThan (by decide)
  | .greaterEqual => mark .greaterEquals (by decide)
  | .and => keyword .and
  | .or => keyword .or
  | .xor => keyword .xor

theorem binaryOp?_operator (op : BinaryOp) :
    (operator op : Word commands).kind.binaryOp? = some op := by
  cases op <;> simp only [operator, kind_keyword] <;> rfl

/-- The word of an operator before its operand. -/
def sign : UnaryOp → Word commands
  | .negate => mark .minus (by decide)
  | .plus => mark .plus (by decide)
  | .not => keyword .not

theorem kind_sign (op : UnaryOp) : (sign op : Word commands).kind = op.kind := by
  cases op with
  | negate => rfl
  | plus => rfl
  | not => exact kind_keyword .not

end Word

namespace Canonical

variable (commands : CommandTable)

/-! ### Single words -/

/-- A name of the program: a word that is no reserved word and no command. -/
structure Name where
  /-- The name as it is spelled. -/
  text : String
  /-- It is a word. -/
  word : Shape.word.Whole text.toList
  /-- It is no reserved word. -/
  notKeyword : Keyword.find? text = none
  /-- It is no command. -/
  notCommand : commands.contains (FrameBasic.Name.fold text) = false

/-- The name of a command. -/
structure CommandName where
  /-- The name as it is spelled. -/
  text : String
  /-- It is a word. -/
  word : Shape.word.Whole text.toList
  /-- It is no reserved word. -/
  notKeyword : Keyword.find? text = none
  /-- It is a command. -/
  isCommand : commands.contains (FrameBasic.Name.fold text) = true

/-- A literal with its spelling. -/
inductive Literal where
  /-- A whole number. -/
  | whole (text : String) (value : Int) (numeral : Shape.integer.Whole text.toList)
      (reads : Decimal.readInteger text.toList = .ok value)
  /-- A hexadecimal number. -/
  | hex (text : String) (value : Int) (numeral : Shape.hex.Whole text.toList)
      (reads : Parser.readHex text = some value)
  /-- A number with a fraction or an exponent. -/
  | float (text : String) (value : Binary64) (numeral : Shape.float.Whole text.toList)
      (reads : Decimal.readReal text.toList = .ok value)
  /-- A text. -/
  | string (value : String) (inside : ∀ c ∈ value.toList, c ≠ '"' ∧ c ≠ '\n')
  /-- A truth value. -/
  | boolean (value : Bool)
  /-- The null reference. -/
  | null

variable {commands}

namespace Name

theorem classifyWord_text (n : Name commands) :
    classifyWord commands n.text = (.identifier, n.text) := by
  have hfold : Text.lower (FrameBasic.Name.split n.text).1 = FrameBasic.Name.fold n.text := rfl
  simp only [classifyWord, n.notKeyword, ite_self, hfold, n.notCommand, Bool.false_eq_true, if_false]

/-- The word of a name. -/
def item (n : Name commands) : Item commands :=
  .word (.letters n.text n.word)

@[simp] theorem kind_item (n : Name commands) : n.item.kind = .identifier :=
  congrArg Prod.fst n.classifyWord_text

@[simp] theorem text_item (n : Name commands) : n.item.text = n.text :=
  congrArg Prod.snd n.classifyWord_text

end Name

namespace CommandName

theorem classifyWord_text (n : CommandName commands) :
    classifyWord commands n.text = (.command, FrameBasic.Name.fold n.text) := by
  have hfold : Text.lower (FrameBasic.Name.split n.text).1 = FrameBasic.Name.fold n.text := rfl
  simp only [classifyWord, n.notKeyword, ite_self, hfold, n.isCommand, if_true]

/-- The word of a command. -/
def item (n : CommandName commands) : Item commands :=
  .word (.letters n.text n.word)

@[simp] theorem kind_item (n : CommandName commands) : n.item.kind = .command :=
  congrArg Prod.fst n.classifyWord_text

@[simp] theorem text_item (n : CommandName commands) :
    n.item.text = FrameBasic.Name.fold n.text :=
  congrArg Prod.snd n.classifyWord_text

end CommandName

/-- A reserved word as an item. -/
def word (w : Keyword) : Item commands :=
  .word (.keyword w)

@[simp] theorem kind_word (w : Keyword) : (word w : Item commands).kind = .keyword w :=
  Word.kind_keyword w

namespace Literal

/-- A numeral as a word. -/
def numeral {text : String} {shape : Shape} (kind : Kind)
    (h : longest? text.toList = some (shape, text.toList.length))
    (hclosed : shape ≠ .blank ∧ shape ≠ .comment ∧ shape ≠ .string)
    (hkind : classify commands shape text.toList = some (kind, String.ofList text.toList)) :
    Word commands where
  chars := text.toList
  shape := shape
  kind := kind
  text := text
  lexeme := h
  closed := ⟨hclosed.1, hclosed.2.1, fun h => absurd h hclosed.2.2⟩
  classified := by rw [hkind, String.ofList_toList]

/-- A text in quotes as a word. -/
def quoted (value : String) (h : ∀ c ∈ value.toList, c ≠ '"' ∧ c ≠ '\n') : Word commands where
  chars := '"' :: (value.toList ++ ['"'])
  shape := .string
  kind := .string
  text := value
  lexeme := longest?_of_string ⟨_, rfl, h⟩
  closed := ⟨by decide, by decide, fun _ => ⟨_, rfl, h⟩⟩
  classified := by
    have hclosed : isClosed ('"' :: (value.toList ++ ['"'])) = true :=
      isClosed_of_isQuoted ⟨_, rfl, h⟩
    simp [classify, unquote, hclosed]

/-- The word of a literal. -/
def item : Literal → Item commands
  | .whole _ _ h _ => .word (numeral .integer (longest?_of_integer h) (by decide) rfl)
  | .hex _ _ h _ => .word (numeral .hex (longest?_of_hex h) (by decide) rfl)
  | .float _ _ h _ => .word (numeral .float (longest?_of_float h) (by decide) rfl)
  | .string value h => .word (quoted value h)
  | .boolean b => Canonical.word (if b then .true_ else .false_)
  | .null => Canonical.word .null

/-- The expression of a literal. -/
def tree : Literal → Expr
  | .whole _ value _ _ => .integer default value
  | .hex _ value _ _ => .integer default value
  | .float _ value _ _ => .float default value
  | .string value _ => .string default value
  | .boolean b => .boolean default b
  | .null => .null default

end Literal

/-! ### Expressions -/

variable (commands)

/-- The expressions of the clauses. -/
inductive Formula where
  | literal (value : Literal)
  | var (name : Name commands)
  | command (name : CommandName commands)
  | field (object : Formula) (name : Name commands)
  | grouped (inner : Formula)
  | unary (op : UnaryOp) (operand : Formula)
  | binary (left : Formula) (op : BinaryOp) (right : Formula)

variable {commands}

namespace Formula

/-- The words of an expression. -/
def items : Formula commands → List (Item commands)
  | .literal value => [value.item]
  | .var name => [name.item]
  | .command name => [name.item]
  | .field object name => object.items ++ [.word (.mark .backslash (by decide)), name.item]
  | .grouped inner =>
    .word (.mark .leftParen (by decide)) :: (inner.items ++ [.word (.mark .rightParen (by decide))])
  | .unary op operand => .word (.sign op) :: operand.items
  | .binary left op right => left.items ++ .word (.operator op) :: right.items

/-- The tree of an expression. -/
def tree : Formula commands → Expr
  | .literal value => value.tree
  | .var name => .var default name.text none
  | .command name => .command default (FrameBasic.Name.fold name.text) []
  | .field object name => .field default object.tree name.text
  | .grouped inner => .grouped default inner.tree
  | .unary op operand => .unary default op operand.tree
  | .binary left op right => .binary default left.tree op right.tree

end Formula

variable (commands)

/-- An expression that is read as it stands. -/
structure Header where
  /-- The expression. -/
  formula : Formula commands
  /-- Its operators are nested by precedence. -/
  nested : formula.tree.ByPrecedence

variable {commands}

namespace Header

/-- The words of the expression. -/
def items (h : Header commands) : List (Item commands) := h.formula.items

/-- The tree of the expression. -/
def tree (h : Header commands) : Expr := h.formula.tree

end Header

/-! ### Statements -/

variable (commands) (types : List (Name commands))

mutual

/-- The statements. -/
inductive Node where
  /-- Stores a literal in a variable. -/
  | assign (name : Name commands) (value : Literal)
  /-- A command without arguments. -/
  | command (name : CommandName commands)
  /-- `If` with its branches. -/
  | if_ (condition : Header commands) (body : Block) (branches : Branches) (otherwise : Otherwise)
  /-- `While` up to `Wend`. -/
  | while_ (condition : Header commands) (body : Block)
  /-- `Repeat` up to `Until`. -/
  | repeatUntil (body : Block) (condition : Header commands)
  /-- `Repeat` up to `Forever`. -/
  | repeatForever (body : Block)
  /-- `For` over numbers. -/
  | for_ (name : Name commands) (first last : Header commands) (step : Option (Header commands))
      (body : Block)
  /-- `For` over the objects of a type. -/
  | forEach (name type : Name commands) (known : type ∈ types) (body : Block)
  /-- `Select` with its clauses. -/
  | select (subject : Header commands) (clauses : Clauses) (otherwise : Otherwise)

/-- The statements of a block. -/
inductive Block where
  | nil
  | cons (first : Node) (rest : Block)

/-- The `ElseIf` branches. -/
inductive Branches where
  | nil
  | cons (condition : Header commands) (body : Block) (rest : Branches)

/-- The `Case` clauses, each with at least one value. -/
inductive Clauses where
  | nil
  | cons (first : Header commands) (more : List (Header commands)) (body : Block) (rest : Clauses)

/-- The block that is taken when no other one is. -/
inductive Otherwise where
  | none
  | some (body : Block)

end

variable {commands types}

/-- Values with commas between them. -/
def separated (first : Header commands) : List (Header commands) → List (Item commands)
  | [] => first.items
  | next :: more => first.items ++ .word (.mark .comma (by decide)) :: separated next more

/-- An equals sign. -/
def equals : Item commands := .word (.mark .equals (by decide))

mutual

/-- The words of a statement, up to the line feed behind it. -/
def Node.items : Node commands types → List (Item commands)
  | .assign name value => [name.item, equals, value.item]
  | .command name => [name.item]
  | .if_ condition body branches otherwise =>
    word .if_ :: (condition.items ++ word .then_ :: .newline ::
      (body.items ++ (branches.items ++ (otherwise.items .else_ ++ [word .endIf]))))
  | .while_ condition body =>
    word .while_ :: (condition.items ++ .newline :: (body.items ++ [word .wend]))
  | .repeatUntil body condition =>
    word .repeat_ :: .newline :: (body.items ++ word .until_ :: condition.items)
  | .repeatForever body => word .repeat_ :: .newline :: (body.items ++ [word .forever])
  | .for_ name first last step body =>
    word .for_ :: name.item :: equals :: (first.items ++ word .to :: (last.items ++
      (step.elim [] (fun step => word .step :: step.items) ++ .newline ::
        (body.items ++ [word .next]))))
  | .forEach name type _ body =>
    word .for_ :: name.item :: equals :: word .each :: type.item :: .newline ::
      (body.items ++ [word .next])
  | .select subject clauses otherwise =>
    word .select :: (subject.items ++ .newline ::
      (clauses.items ++ (otherwise.items .default ++ [word .end_, word .select])))

/-- The words of a block, with a line feed behind each statement. -/
def Block.items : Block commands types → List (Item commands)
  | .nil => []
  | .cons first rest => first.items ++ .newline :: rest.items

/-- The words of the `ElseIf` branches. -/
def Branches.items : Branches commands types → List (Item commands)
  | .nil => []
  | .cons condition body rest =>
    word .elseIf :: (condition.items ++ word .then_ :: .newline :: (body.items ++ rest.items))

/-- The words of the `Case` clauses. -/
def Clauses.items : Clauses commands types → List (Item commands)
  | .nil => []
  | .cons first more body rest =>
    word .case :: (separated first more ++ .newline :: (body.items ++ rest.items))

/-- The words of the last block, which a reserved word begins. -/
def Otherwise.items (opening : Keyword) : Otherwise commands types → List (Item commands)
  | .none => []
  | .some body => word opening :: .newline :: body.items

end

mutual

/-- The tree of a statement. -/
def Node.tree : Node commands types → Stmt
  | .assign name value => .assign default (.var default name.text none) value.tree
  | .command name => .expr default (.command default (FrameBasic.Name.fold name.text) [])
  | .if_ condition body branches otherwise =>
    .if_ default condition.tree body.tree branches.tree otherwise.tree
  | .while_ condition body => .while_ default condition.tree body.tree
  | .repeatUntil body condition => .repeat_ default body.tree (some condition.tree)
  | .repeatForever body => .repeat_ default body.tree none
  | .for_ name first last step body =>
    .for_ default name.text first.tree last.tree (step.map Header.tree) body.tree
  | .forEach name type _ body => .forEach default name.text type.text body.tree
  | .select subject clauses otherwise =>
    .select default subject.tree clauses.tree otherwise.tree

/-- The tree of a block. -/
def Block.tree : Block commands types → List Stmt
  | .nil => []
  | .cons first rest => first.tree :: rest.tree

/-- The trees of the `ElseIf` branches. -/
def Branches.tree : Branches commands types → List ElseIf
  | .nil => []
  | .cons condition body rest => .mk condition.tree body.tree :: rest.tree

/-- The trees of the `Case` clauses. -/
def Clauses.tree : Clauses commands types → List CaseClause
  | .nil => []
  | .cons first more body rest =>
    .mk (first.tree :: more.map Header.tree) body.tree default :: rest.tree

/-- The tree of the last block. -/
def Otherwise.tree : Otherwise commands types → Option (List Stmt)
  | .none => none
  | .some body => some body.tree

end

/-! ### Programs -/

variable (commands)

/-- A type with its fields. -/
structure TypeBlock where
  /-- The name of the type. -/
  name : Name commands
  /-- The names of its fields. -/
  fields : List (Name commands)

/-- Types, and statements that use them. -/
structure Program where
  /-- The types. -/
  types : List (TypeBlock commands)
  /-- The statements. -/
  body : Block commands (types.map TypeBlock.name)

variable {commands}

namespace TypeBlock

/-- The words of the fields, with a line feed behind each. -/
def fieldItems : List (Name commands) → List (Item commands)
  | [] => []
  | name :: rest => word .field :: name.item :: .newline :: fieldItems rest

/-- The words of a type, up to the line feed behind it. -/
def items (t : TypeBlock commands) : List (Item commands) :=
  word .type :: t.name.item :: .newline :: (fieldItems t.fields ++ [word .end_, word .type])

/-- The tree of a type. -/
def tree (t : TypeBlock commands) : Stmt :=
  .type default t.name.text (t.fields.map fun name => ⟨name.text, none, default⟩)

/-- The words of some types, with a line feed behind each. -/
def allItems : List (TypeBlock commands) → List (Item commands)
  | [] => []
  | t :: rest => t.items ++ .newline :: allItems rest

end TypeBlock

namespace Program

/-- The words of a program. -/
def items (p : Program commands) : List (Item commands) :=
  TypeBlock.allItems p.types ++ p.body.items

/-- The text of a program. -/
def source (p : Program commands) : String :=
  String.ofList (spell p.items)

example : source (⟨[], .cons (.repeatForever (.cons (.assign
      ⟨"x", by decide +kernel, by decide +kernel, by decide +kernel⟩ (.boolean true)) .nil)) .nil⟩ :
    Program .empty) = "Repeat\nx = True\nForever\n" := by
  decide +kernel

/-- The tree of a program. -/
def tree (p : Program commands) : List Stmt :=
  p.types.map TypeBlock.tree ++ p.body.tree

end Program

end Canonical

end FrameBasic

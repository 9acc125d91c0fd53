import FrameBasic.Dict
import FrameBasic.Value

/-!
# Scopes

Whether `name(1)` is an array element or a call depends on what was declared before it, so the names
declared so far are kept while a program is read.  There is one global scope and, inside a function,
an inner one.  Names are looked up without their type marker and in any case, from the innermost
scope outwards.

## Main definitions

* `Symbol` — what a name stands for.
* `Scopes` — the global scope and the inner ones, innermost first.
* `Scopes.enter`, `Scopes.exit` — open and close an inner scope; the global one is never closed.
* `Scopes.define`, `Scopes.defineGlobal` — declare a name in the innermost or the global scope.
* `Scopes.lookup?`, `Scopes.lookupInner?` — what a name stands for.
-/

namespace FrameBasic

/-- The kinds of things that names stand for. -/
inductive SymbolKind where
  /-- A variable or a parameter. -/
  | scalar
  /-- An array with a number of dimensions. -/
  | array (dimensions : Nat)
  /-- A function with the names of its parameters. -/
  | function (params : List String)
  /-- A user type with the names of its fields. -/
  | type (fields : List String)
deriving DecidableEq, Repr, Inhabited

/-- What a name stands for. -/
structure Symbol where
  /-- The folded name. -/
  name : String
  /-- The type of the value. -/
  type : ValueType
  /-- The folded name of the user type of an object. -/
  typeName : Option String
  /-- The kind of thing. -/
  kind : SymbolKind
deriving DecidableEq, Repr, Inhabited

namespace Symbol

/-- A variable. -/
def scalar (name : String) (type : ValueType) : Symbol :=
  ⟨Name.fold name, type, none, .scalar⟩

/-- An array. -/
def array (name : String) (type : ValueType) (dimensions : Nat) : Symbol :=
  ⟨Name.fold name, type, none, .array dimensions⟩

/-- A function with the type of its result. -/
def function (name : String) (returns : ValueType) (params : List String) : Symbol :=
  ⟨Name.fold name, returns, none, .function params⟩

/-- A user type. -/
def userType (name : String) (fields : List String) : Symbol :=
  ⟨Name.fold name, .object, some (Name.fold name), .type fields⟩

/-- The symbol as an object of a user type. -/
def withTypeName (symbol : Symbol) (typeName : String) : Symbol :=
  { symbol with typeName := some (Name.fold typeName), type := .object }

/-- The symbol of a variable that a declaration or a first assignment makes.  A type name makes it
an object; otherwise the marker decides, then a text or an object as first value, and else it is a
number. -/
def declared (name : String) (typeName : Option String) (value : Option ValueType) : Symbol :=
  match typeName with
  | some typeName => (scalar name .object).withTypeName typeName
  | none =>
    let fromValue : ValueType :=
      match value with
      | some .object => .object
      | some .string => .string
      | _ => .number
    scalar name ((Name.markedType? name).getD fromValue)

theorem name_declared (name : String) (typeName : Option String) (value : Option ValueType) :
    (declared name typeName value).name = Name.fold name := by
  cases typeName <;> rfl

/-- Whether the symbol is an array. -/
def isArray (symbol : Symbol) : Bool :=
  match symbol.kind with
  | .array _ => true
  | _ => false

/-- Whether the symbol is a function. -/
def isFunction (symbol : Symbol) : Bool :=
  match symbol.kind with
  | .function _ => true
  | _ => false

/-- Whether the symbol is a user type. -/
def isType (symbol : Symbol) : Bool :=
  match symbol.kind with
  | .type _ => true
  | _ => false

end Symbol

/-- The global scope and the inner scopes, innermost first. -/
structure Scopes where
  /-- The global scope. -/
  global : Dict Symbol
  /-- The inner scopes, innermost first. -/
  inner : List (Dict Symbol)
deriving DecidableEq, Repr, Inhabited

namespace Scopes

/-- No name is declared. -/
def empty : Scopes := ⟨[], []⟩

/-- The scopes with a new innermost one. -/
def enter (s : Scopes) : Scopes :=
  { s with inner := [] :: s.inner }

/-- The scopes without the innermost one.  The global scope stays. -/
def exit (s : Scopes) : Scopes :=
  { s with inner := s.inner.tail }

/-- The number of scopes. -/
def depth (s : Scopes) : Nat :=
  s.inner.length + 1

/-- Whether there is no inner scope. -/
def isGlobal (s : Scopes) : Bool :=
  s.inner.isEmpty

/-- The scopes with a symbol declared in the innermost one. -/
def define (s : Scopes) (symbol : Symbol) : Scopes :=
  match s.inner with
  | [] => { s with global := Dict.insert symbol.name symbol s.global }
  | scope :: outer => { s with inner := Dict.insert symbol.name symbol scope :: outer }

/-- The scopes with a symbol declared in the global one. -/
def defineGlobal (s : Scopes) (symbol : Symbol) : Scopes :=
  { s with global := Dict.insert symbol.name symbol s.global }

/-- What a folded name stands for, from the innermost scope outwards. -/
def find? (key : String) (global : Dict Symbol) : List (Dict Symbol) → Option Symbol
  | [] => Dict.get? key global
  | scope :: outer => (Dict.get? key scope).or (find? key global outer)

/-- What a name stands for, from the innermost scope outwards. -/
def lookup? (s : Scopes) (name : String) : Option Symbol :=
  find? (Name.fold name) s.global s.inner

/-- The innermost scope. -/
def innermost (s : Scopes) : Dict Symbol :=
  s.inner.headD s.global

/-- What a name stands for in the innermost scope. -/
def lookupInner? (s : Scopes) (name : String) : Option Symbol :=
  Dict.get? (Name.fold name) s.innermost

/-- Whether a name stands for an array. -/
def isArray (s : Scopes) (name : String) : Bool :=
  (s.lookup? name).any Symbol.isArray

/-- Whether a name stands for a function. -/
def isFunction (s : Scopes) (name : String) : Bool :=
  (s.lookup? name).any Symbol.isFunction

/-- Whether a name stands for a user type. -/
def isType (s : Scopes) (name : String) : Bool :=
  (s.lookup? name).any Symbol.isType

/-- Closing a scope, of a depth at which one was opened. -/
theorem depth_exit {s outer : Scopes} (h : s.depth = outer.enter.depth) :
    s.exit.depth = outer.depth := by
  unfold exit depth at *
  rw [List.length_tail]
  simp only [enter, List.length_cons] at h
  omega

@[simp] theorem depth_define (s : Scopes) (symbol : Symbol) :
    (s.define symbol).depth = s.depth := by
  unfold define depth
  split <;> simp_all

@[simp] theorem depth_defineGlobal (s : Scopes) (symbol : Symbol) :
    (s.defineGlobal symbol).depth = s.depth := rfl

end Scopes

end FrameBasic

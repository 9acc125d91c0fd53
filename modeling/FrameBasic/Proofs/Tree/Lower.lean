import FrameBasic.Proofs.Tree.Relabel
import FrameBasic.Tree.Parser.Fault
import FrameBasic.Typing

/-!
# Names in another case

The case of letters in a name is not looked at: the key of a name and the type that its marker says
are those of the name in small letters.  So a tree, the declared names and the faults say the same
when their names are spelled in another case.

## Main definitions

* `Relabel.Respells` — only the case of names and the values of `Data` lists change.
* `Relabel.lower` — names in small letters.
* `Token.relabel`, `Symbol.relabel`, `Fault.relabel` — a token, a declared name and a fault with other
  names in them; `Token.lower` and `ParseError.lower` are for small letters.

## Main results

* `Name.fold_lower`, `Name.markedType?_lower` — what is asked of a name.
* `Scopes.lookup?_relabel` — names are looked up in any case.
* `Expr.relabel_typed`, `mismatchesFrom_relabel` — inferred types and wrong arguments are the same.
-/

namespace FrameBasic

/-! ### Names -/

/-- The markers stand before the letters. -/
theorem Marker.ofChar?_eq_none {c : Char} (h : 65 ≤ c.toNat) : ofChar? c = none := by
  unfold ofChar?
  rw [if_neg, if_neg, if_neg]
  all_goals
    rintro rfl
    exact absurd h (by decide)

theorem Marker.ofChar?_toLower (c : Char) : ofChar? c.toLower = ofChar? c := by
  rcases toLower_cases c with h | ⟨hfirst, -, hsmall⟩
  · rw [h]
  · rw [ofChar?_eq_none (by omega), ofChar?_eq_none hfirst]

@[simp] theorem Text.lower_lower (s : String) : lower (lower s) = lower s := by
  unfold lower
  rw [String.toList_ofList, List.map_map]
  congr 1
  exact List.map_congr_left fun c _ => toLower_toLower c

namespace Name

theorem split_lower (name : String) :
    split (Text.lower name) = (Text.lower (split name).1, (split name).2) := by
  have hlast : (name.toList.map Char.toLower).getLast?.bind Marker.ofChar? =
      name.toList.getLast?.bind Marker.ofChar? := by
    rw [List.getLast?_map]
    cases name.toList.getLast? with
    | none => rfl
    | some c => exact Marker.ofChar?_toLower c
  unfold split
  rw [Text.toList_lower, hlast, List.length_map]
  split
  · split
    · rw [← List.map_dropLast]
      simp [Text.lower]
    · rfl
  · rfl

/-- The key of a name does not depend on case. -/
@[simp] theorem fold_lower (name : String) : fold (Text.lower name) = fold name := by
  unfold fold base
  rw [split_lower, Text.lower_lower]

/-- The marker of a name does not depend on case. -/
@[simp] theorem markedType?_lower (name : String) :
    markedType? (Text.lower name) = markedType? name := by
  unfold markedType?
  rw [split_lower]

theorem fold_congr {name name' : String} (h : Text.lower name = Text.lower name') :
    fold name = fold name' := by
  rw [← fold_lower, h, fold_lower]

theorem markedType?_congr {name name' : String} (h : Text.lower name = Text.lower name') :
    markedType? name = markedType? name' := by
  rw [← markedType?_lower, h, markedType?_lower]

end Name

/-- Only the case of names and the values of `Data` lists change. -/
class Relabel.Respells (r : Relabel) : Prop where
  info_eq : ∀ i, r.info i = i
  span_eq : ∀ s, r.span s = s
  lower_name : ∀ name, Text.lower (r.name name) = Text.lower name
  command_eq : ∀ name, r.command name = name

/-- Names in small letters.  The names of commands stay as they are, and so do places and types. -/
def Relabel.lower (merge : DataValue → DataValue) : Relabel :=
  ⟨id, id, Text.lower, id, merge⟩

namespace Relabel

instance (merge : DataValue → DataValue) : (lower merge).Respells :=
  ⟨fun _ => rfl, fun _ => rfl, Text.lower_lower, fun _ => rfl⟩

instance : keep.Respells :=
  ⟨fun _ => rfl, fun _ => rfl, fun _ => rfl, fun _ => rfl⟩

attribute [simp] Respells.info_eq Respells.span_eq Respells.lower_name Respells.command_eq

variable {r : Relabel} [r.Respells]

@[simp] theorem fold_name (name : String) : Name.fold (r.name name) = Name.fold name :=
  Name.fold_congr (Respells.lower_name name)

@[simp] theorem markedType?_name (name : String) :
    Name.markedType? (r.name name) = Name.markedType? name :=
  Name.markedType?_congr (Respells.lower_name name)

variable {name name' : String} (h : r.name name = r.name name')
include h

theorem lower_congr : Text.lower name = Text.lower name' := by
  rw [← Respells.lower_name (r := r), h, Respells.lower_name]

theorem fold_congr : Name.fold name = Name.fold name' :=
  Name.fold_congr (lower_congr h)

theorem markedType?_congr : Name.markedType? name = Name.markedType? name' :=
  Name.markedType?_congr (lower_congr h)

end Relabel

/-! ### Declared names -/

namespace Dict

variable {α β : Type}

/-- The dictionary with other values. -/
def mapValues (f : α → β) (d : Dict α) : Dict β :=
  d.map fun entry => (entry.1, f entry.2)

theorem get?_mapValues (f : α → β) (k : String) (d : Dict α) :
    get? k (d.mapValues f) = (get? k d).map f := by
  induction d with
  | nil => rfl
  | cons entry rest ih =>
    obtain ⟨key, value⟩ := entry
    by_cases hk : key = k
    · simp [mapValues, get?, hk]
    · simp only [mapValues, List.map_cons, get?, hk, if_false] at ih ⊢
      exact ih

theorem mapValues_insert (f : α → β) (k : String) (v : α) (d : Dict α) :
    (d.insert k v).mapValues f = (d.mapValues f).insert k (f v) := by
  induction d with
  | nil => rfl
  | cons entry rest ih =>
    obtain ⟨key, value⟩ := entry
    by_cases hk : key = k
    · simp [mapValues, insert, hk]
    · simp only [mapValues, insert, hk, if_false, List.map_cons] at ih ⊢
      rw [ih]

end Dict

section Relabeled

variable (r : Relabel)

/-- The kind of thing with other names for its parts. -/
def SymbolKind.relabel : SymbolKind → SymbolKind
  | .function params => .function (params.map r.name)
  | .type fields => .type (fields.map r.name)
  | kind => kind

/-- What a name stands for, with other names for its parts. -/
def Symbol.relabel (symbol : Symbol) : Symbol :=
  { symbol with kind := symbol.kind.relabel r }

/-- The declared names, with other names for the parts of what they stand for. -/
def Scopes.relabel (s : Scopes) : Scopes :=
  ⟨Dict.mapValues (Symbol.relabel r) s.global, s.inner.map (Dict.mapValues (Symbol.relabel r))⟩

end Relabeled

variable {r : Relabel}

namespace Symbol

@[simp] theorem isArray_relabel (symbol : Symbol) :
    (symbol.relabel r).isArray = symbol.isArray := by
  obtain ⟨_, _, _, kind⟩ := symbol
  cases kind <;> rfl

@[simp] theorem isFunction_relabel (symbol : Symbol) :
    (symbol.relabel r).isFunction = symbol.isFunction := by
  obtain ⟨_, _, _, kind⟩ := symbol
  cases kind <;> rfl

@[simp] theorem isType_relabel (symbol : Symbol) : (symbol.relabel r).isType = symbol.isType := by
  obtain ⟨_, _, _, kind⟩ := symbol
  cases kind <;> rfl

theorem relabel_elim_withTypeName (typeName : Option String) (symbol : Symbol) :
    (typeName.elim symbol symbol.withTypeName).relabel r =
      typeName.elim (symbol.relabel r) (symbol.relabel r).withTypeName := by
  cases typeName <;> rfl

section Congruence

variable [r.Respells] {name name' : String} {typeName typeName' : Option String}

theorem elim_withTypeName_congr (htype : typeName.map r.name = typeName'.map r.name)
    (symbol : Symbol) :
    typeName.elim symbol symbol.withTypeName = typeName'.elim symbol symbol.withTypeName := by
  cases typeName with
  | none =>
    cases typeName' with
    | none => rfl
    | some _ => cases htype
  | some type =>
    cases typeName' with
    | none => cases htype
    | some type' =>
      unfold withTypeName
      rw [Option.elim_some, Option.elim_some, Relabel.fold_congr (Option.some.inj htype)]

variable (hname : r.name name = r.name name')
include hname

theorem array_congr (htype : typeName.map r.name = typeName'.map r.name) (n : Nat) :
    typeName.elim (array name ((Name.markedType? name).getD .number) n)
        (array name ((Name.markedType? name).getD .number) n).withTypeName =
      typeName'.elim (array name' ((Name.markedType? name').getD .number) n)
        (array name' ((Name.markedType? name').getD .number) n).withTypeName := by
  unfold array
  rw [Relabel.fold_congr hname, Relabel.markedType?_congr hname]
  exact elim_withTypeName_congr htype _

theorem declared_congr (htype : typeName.map r.name = typeName'.map r.name)
    (value : Option ValueType) : declared name typeName value = declared name' typeName' value := by
  have hobject := elim_withTypeName_congr htype (scalar name' .object)
  unfold declared scalar at *
  rw [Relabel.fold_congr hname, Relabel.markedType?_congr hname]
  cases typeName with
  | none =>
    cases typeName' with
    | none => rfl
    | some _ => cases htype
  | some type =>
    cases typeName' with
    | none => cases htype
    | some type' => exact hobject

theorem function_congr (htype : typeName.map r.name = typeName'.map r.name) (returns : ValueType)
    {params params' : List String} (hparams : params.map r.name = params'.map r.name) :
    (typeName.elim (function name returns params) (function name returns params).withTypeName).relabel
        r =
      (typeName'.elim (function name' returns params')
        (function name' returns params').withTypeName).relabel r := by
  have hplain : (function name returns params).relabel r =
      (function name' returns params').relabel r := by
    simp only [function, relabel, SymbolKind.relabel, Relabel.fold_congr hname, hparams]
  rw [relabel_elim_withTypeName, relabel_elim_withTypeName, hplain]
  exact elim_withTypeName_congr htype _

theorem userType_congr {fields fields' : List String}
    (hfields : fields.map r.name = fields'.map r.name) :
    (userType name fields).relabel r = (userType name' fields').relabel r := by
  simp only [userType, relabel, SymbolKind.relabel, Relabel.fold_congr hname, hfields]

end Congruence

end Symbol

namespace Scopes

variable {s s' : Scopes} {name name' : String}

theorem find?_relabel (key : String) (global : Dict Symbol) (inner : List (Dict Symbol)) :
    find? key (Dict.mapValues (Symbol.relabel r) global)
        (inner.map (Dict.mapValues (Symbol.relabel r))) =
      (find? key global inner).map (Symbol.relabel r) := by
  induction inner with
  | nil => exact Dict.get?_mapValues ..
  | cons scope outer ih =>
    rw [List.map_cons, find?, find?, ih, Dict.get?_mapValues]
    cases Dict.get? key scope <;> rfl

theorem isGlobal_congr (h : s.relabel r = s'.relabel r) : s.isGlobal = s'.isGlobal := by
  have hrelabel : ∀ s : Scopes, (s.relabel r).isGlobal = s.isGlobal := by
    intro s
    obtain ⟨global, inner⟩ := s
    cases inner <;> rfl
  rw [← hrelabel s, h, hrelabel]

theorem relabel_define (s : Scopes) (symbol : Symbol) :
    (s.define symbol).relabel r = (s.relabel r).define (symbol.relabel r) := by
  obtain ⟨global, inner⟩ := s
  cases inner with
  | nil => exact congrArg (Scopes.mk · _) (Dict.mapValues_insert ..)
  | cons scope outer =>
    exact congrArg (fun scope => Scopes.mk _ (scope :: _)) (Dict.mapValues_insert ..)

theorem relabel_defineGlobal (s : Scopes) (symbol : Symbol) :
    (s.defineGlobal symbol).relabel r = (s.relabel r).defineGlobal (symbol.relabel r) :=
  congrArg (Scopes.mk · _) (Dict.mapValues_insert ..)

theorem relabel_enter (s : Scopes) : s.enter.relabel r = (s.relabel r).enter := rfl

theorem relabel_exit (s : Scopes) : s.exit.relabel r = (s.relabel r).exit :=
  congrArg (Scopes.mk _) List.map_tail

section Lookup

variable [r.Respells]

/-- Names are looked up in any case. -/
theorem lookup?_relabel (s : Scopes) (name : String) :
    (s.relabel r).lookup? (r.name name) = (s.lookup? name).map (Symbol.relabel r) := by
  unfold lookup?
  rw [Relabel.fold_name]
  exact find?_relabel ..

variable (h : s.relabel r = s'.relabel r) (hname : r.name name = r.name name')
include h hname

theorem lookup?_congr :
    (s.lookup? name).map (Symbol.relabel r) = (s'.lookup? name').map (Symbol.relabel r) := by
  rw [← lookup?_relabel, ← lookup?_relabel, h, hname]

/-- What does not depend on the names of the parts. -/
theorem any_congr {f : Symbol → Bool} (hf : ∀ symbol : Symbol, f (symbol.relabel r) = f symbol) :
    (s.lookup? name).any f = (s'.lookup? name').any f := by
  have hmap : ∀ o : Option Symbol, (o.map (Symbol.relabel r)).any f = o.any f := by
    intro o
    cases o with
    | none => rfl
    | some symbol => exact hf symbol
  rw [← hmap (s.lookup? name), lookup?_congr h hname, hmap]

theorem isArray_congr : s.isArray name = s'.isArray name' :=
  any_congr h hname Symbol.isArray_relabel

theorem isFunction_congr : s.isFunction name = s'.isFunction name' :=
  any_congr h hname Symbol.isFunction_relabel

theorem isType_congr : s.isType name = s'.isType name' :=
  any_congr h hname Symbol.isType_relabel

theorem isNone_lookup?_congr : (s.lookup? name).isNone = (s'.lookup? name').isNone := by
  have hlookup := congrArg Option.isNone (lookup?_congr h hname)
  rwa [Option.isNone_map, Option.isNone_map] at hlookup

theorem isNone_lookupInner?_congr :
    (s.lookupInner? name).isNone = (s'.lookupInner? name').isNone := by
  have hrelabel : ∀ (s : Scopes) (key : String),
      (Dict.get? key (s.relabel r).innermost).isNone = (Dict.get? key s.innermost).isNone := by
    intro s key
    obtain ⟨global, inner⟩ := s
    cases inner with
    | nil | cons scope outer => exact (congrArg _ (Dict.get?_mapValues ..)).trans Option.isNone_map
  unfold lookupInner?
  rw [← hrelabel s, h, hrelabel, Relabel.fold_congr hname]

end Lookup

end Scopes

/-! ### Trees -/

namespace Expr

theorem info_relabel (r : Relabel) (e : Expr) : (e.relabel r).info = r.info e.info := by
  cases e <;> rfl

theorem relabel_withInfo (r : Relabel) (i : Info) (e : Expr) :
    (e.withInfo i).relabel r = (e.relabel r).withInfo (r.info i) := by
  cases e <;> rfl

end Expr

section Types

variable [r.Respells]

@[simp] theorem Expr.type_relabel (e : Expr) : (e.relabel r).type = e.type := by
  unfold type
  rw [info_relabel, Relabel.Respells.info_eq]

@[simp] theorem Expr.span_relabel (e : Expr) : (e.relabel r).span = e.span := by
  unfold span
  rw [info_relabel, Relabel.Respells.info_eq]

theorem nameType_relabel (scopes : Scopes) (name : String) :
    nameType (scopes.relabel r) (r.name name) = nameType scopes name := by
  unfold nameType
  rw [Relabel.markedType?_name, Scopes.lookup?_relabel, Option.map_map]
  rfl

theorem Expr.inferredType_relabel (scopes : Scopes) (commands : CommandTable) (e : Expr) :
    (e.relabel r).inferredType (scopes.relabel r) commands = e.inferredType scopes commands := by
  cases e with
  | var i name typeName =>
    cases typeName with
    | none => exact nameType_relabel scopes name
    | some type => rfl
  | element i name indices | call i name args => exact nameType_relabel scopes name
  | binary i left op right => simp only [relabel, inferredType, type_relabel]
  | unary i op operand => cases op <;> rfl
  | grouped i inner => exact type_relabel inner
  | field i object name => simp only [relabel, inferredType, Relabel.markedType?_name]
  | command i name args => simp only [relabel, inferredType, Relabel.Respells.command_eq]
  | _ => rfl

/-- Inferred types do not depend on case. -/
theorem Expr.relabel_typed (scopes : Scopes) (commands : CommandTable) (e : Expr) :
    (e.typed scopes commands).relabel r = (e.relabel r).typed (scopes.relabel r) commands := by
  unfold typed withType
  rw [relabel_withInfo, inferredType_relabel, info_relabel, Relabel.Respells.info_eq,
    Relabel.Respells.info_eq]

/-- The arguments of a wrong type do not depend on case. -/
theorem mismatchesFrom_relabel (position : Nat) (params : List ValueType) (args : List Expr) :
    mismatchesFrom position params (relabelAll r args) = mismatchesFrom position params args := by
  induction params generalizing position args with
  | nil => cases args <;> rfl
  | cons expected params ih =>
    cases args with
    | nil => rfl
    | cons arg args =>
      simp only [relabelAll, mismatchesFrom, Expr.type_relabel, Expr.span_relabel, ih]

end Types

/-! ### Tokens and faults -/

section Relabeled

variable (r : Relabel)

/-- The token with another text, if it is a name of the program or a label. -/
def Token.relabel (token : Token) : Token :=
  if token.kind = .identifier ∨ token.kind = .label then
    { token with text := r.name token.text }
  else token

/-- What was wanted, with another name. -/
def Expected.relabel : Expected → Expected
  | .equalsAfter name => .equalsAfter (r.name name)
  | expected => expected

/-- The fault with other names. -/
def Fault.relabel : Fault → Fault
  | .unexpected expected found => .unexpected (expected.relabel r) (found.relabel r)
  | .endOfInput expected => .endOfInput (expected.relabel r)
  | .badExpression found => .badExpression (found.relabel r)
  | .badStatement found => .badStatement (found.relabel r)
  | .loopType typeName => .loopType (r.name typeName)
  | .notArray name => .notArray (r.name name)
  | .unknownType name => .unknownType (r.name name)
  | fault => fault

/-- The error with other names. -/
def ParseError.relabel (e : ParseError) : ParseError :=
  ⟨e.fault.relabel r, e.span⟩

end Relabeled

/-- The token with its text in small letters, if it is a name of the program or a label. -/
def Token.lower (token : Token) : Token :=
  token.relabel (.lower id)

/-- The token without its text, if it is a name of the program or a label. -/
def Token.nameless (token : Token) : Token :=
  token.relabel { Relabel.keep with name := fun _ => "" }

/-- The error with its names in small letters. -/
def ParseError.lower (e : ParseError) : ParseError :=
  e.relabel (.lower id)

namespace Token

@[simp] theorem kind_relabel (token : Token) : (token.relabel r).kind = token.kind := by
  unfold relabel
  split <;> rfl

@[simp] theorem span_relabel (token : Token) : (token.relabel r).span = token.span := by
  unfold relabel
  split <;> rfl

theorem nameless_lower (token : Token) : token.lower.nameless = token.nameless := by
  by_cases h : token.kind = .identifier ∨ token.kind = .label <;> simp [nameless, lower, relabel, h]

variable {token token' : Token} (h : token.relabel r = token'.relabel r)
include h

theorem kind_congr : token.kind = token'.kind := by
  rw [← kind_relabel (r := r), h, kind_relabel]

theorem span_congr : token.span = token'.span := by
  rw [← span_relabel (r := r), h, span_relabel]

/-- Only names and labels have letters of any case. -/
theorem text_eq (hname : token.kind ≠ .identifier) (hlabel : token.kind ≠ .label) :
    token.text = token'.text := by
  have hkind := kind_congr h
  have htext := congrArg text h
  unfold relabel at htext
  rwa [if_neg (not_or.mpr ⟨hname, hlabel⟩),
    if_neg (not_or.mpr ⟨hkind ▸ hname, hkind ▸ hlabel⟩)] at htext

theorem text_congr : r.name token.text = r.name token'.text := by
  by_cases hk : token.kind = .identifier ∨ token.kind = .label
  · have hk' := kind_congr h ▸ hk
    have htext := congrArg text h
    unfold relabel at htext
    rwa [if_pos hk, if_pos hk'] at htext
  · obtain ⟨hname, hlabel⟩ := not_or.mp hk
    rw [text_eq h hname hlabel]

end Token

end FrameBasic

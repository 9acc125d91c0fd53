import FrameBasic.Proofs.Reader.Position
import FrameBasic.Proofs.Tree.Spelling

/-!
# Reading by precedence

An expression that is read without an error is spelled by the tokens that were passed, and its
operators are nested as their precedence asks for.  This holds from any token on, also behind one
that ends the input.

What a reader does is said relative to the token it starts at.  Whatever happens, it goes forward,
keeps the recorded errors and declares nothing; so when it records no error, neither did any of the
readers it is made of.

## Main definitions

* `Parser.Input.between` — the tokens from one place up to another.
* `Parser.Went` — what reading may do to the state.
* `Parser.ReadsFrom` — the judgement about readers.
* `Parser.Operand`, `Parser.Tree` — what is known of an operand and of an expression.

## Main results

* `Parser.ReadsFrom.bind` — one reader after the other.
* `Parser.primary_from`, `Parser.climb_from` — operands and operators.
* `Parser.expression_from` — an expression is read by precedence.
-/

namespace FrameBasic.Parser

/-! ### The tokens between two places -/

namespace Input

variable {input : Input} {i j k : Nat}

/-- The tokens from one place up to another. -/
def between (input : Input) (i j : Nat) : List Token :=
  (input.tokens.toList.drop i).take (j - i)

theorem between_append (hij : i ≤ j) (hjk : j ≤ k) :
    input.between i j ++ input.between j k = input.between i k := by
  have hlen : k - i = (j - i) + (k - j) := by omega
  have hdrop : input.tokens.toList.drop j = (input.tokens.toList.drop i).drop (j - i) := by
    rw [List.drop_drop, Nat.add_sub_cancel' hij]
  unfold between
  rw [hlen, hdrop, List.take_add]

theorem between_token {t : Token} (h : input.tokens[i]? = some t) :
    input.between i (i + 1) = [t] := by
  have hlist : input.tokens.toList[i]? = some t := by rw [Array.getElem?_toList, h]
  obtain ⟨hi, hget⟩ := List.getElem?_eq_some_iff.mp hlist
  unfold between
  rw [Nat.add_sub_cancel_left, List.drop_eq_getElem_cons hi, hget, List.take_succ_cons,
    List.take_zero]

/-- A token and those after it. -/
theorem between_cons {t : Token} (h : input.tokens[i]? = some t) (hj : i + 1 ≤ j) :
    input.between i j = t :: input.between (i + 1) j := by
  rw [← between_append (Nat.le_succ i) hj, between_token h]
  rfl

/-- A token behind others. -/
theorem between_concat {t : Token} (h : input.tokens[j]? = some t) (hij : i ≤ j) :
    input.between i (j + 1) = input.between i j ++ [t] := by
  rw [← between_append hij (Nat.le_succ j), between_token h]

end Input

/-! ### Readers -/

/-- Reading led from `s` to `s'`. -/
structure Went (input : Input) (s s' : State) : Prop where
  /-- It went forward. -/
  cursor_le : s.cursor ≤ s'.cursor
  /-- It stayed among the tokens. -/
  le_size : s.cursor ≤ input.tokens.size → s'.cursor ≤ input.tokens.size
  /-- It kept the recorded errors. -/
  errors : s.errors <+: s'.errors
  /-- It declared nothing. -/
  scopes : s'.scopes = s.scopes

/-- From the token `i` on, the reader does what reading may do; and if it records no error, `Q` holds
of its result and the place where it stops. -/
def ReadsFrom {α : Type} (input : Input) (scopes : Scopes) (i : Nat) (p : Parser α)
    (Q : α → Nat → Prop) : Prop :=
  ∀ s : State, s.cursor = i → s.scopes = scopes → i ≤ input.tokens.size →
    Went input s (p input s).2 ∧
      ((p input s).2.errors = s.errors → Q (p input s).1 (p input s).2.cursor)

variable {α β : Type} {input : Input} {scopes : Scopes} {i : Nat}
variable {p : Parser α} {f : α → Parser β} {Q : α → Nat → Prop} {R : β → Nat → Prop}

namespace Went

variable {s s₁ s₂ : State}

theorem refl (input : Input) (s : State) : Went input s s :=
  ⟨Nat.le_refl _, id, List.prefix_refl _, rfl⟩

theorem trans (h : Went input s s₁) (h' : Went input s₁ s₂) : Went input s s₂ where
  cursor_le := Nat.le_trans h.cursor_le h'.cursor_le
  le_size hs := h'.le_size (h.le_size hs)
  errors := h.errors.trans h'.errors
  scopes := h'.scopes.trans h.scopes

/-- If no error was recorded, none was recorded on the way. -/
theorem silent (h : Went input s s₁) (h' : Went input s₁ s₂) (hs : s₂.errors = s.errors) :
    s₁.errors = s.errors ∧ s₂.errors = s₁.errors := by
  have hback : s₁.errors <+: s.errors := hs ▸ h'.errors
  have heq : s₁.errors = s.errors :=
    hback.eq_of_length (Nat.le_antisymm hback.length_le h.errors.length_le)
  exact ⟨heq, hs.trans heq.symm⟩

end Went

namespace ReadsFrom

theorem imp {Q' : α → Nat → Prop} (h : ReadsFrom input scopes i p Q)
    (hQ : ∀ a j, i ≤ j → Q a j → Q' a j) : ReadsFrom input scopes i p Q' := by
  intro s hs hscopes hi
  obtain ⟨hw, hq⟩ := h s hs hscopes hi
  exact ⟨hw, fun hsilent => hQ _ _ (hs ▸ hw.cursor_le) (hq hsilent)⟩

theorem pure {a : α} (h : Q a i) : ReadsFrom input scopes i (pure a) Q := by
  intro s hs _ _
  exact ⟨.refl input s, fun _ => hs ▸ h⟩

theorem bind (hp : ReadsFrom input scopes i p Q)
    (hf : ∀ a j, i ≤ j → ReadsFrom input scopes j (f a) fun b k => Q a j → R b k) :
    ReadsFrom input scopes i (p >>= f) R := by
  intro s hs hscopes hi
  obtain ⟨hw, hq⟩ := hp s hs hscopes hi
  have hj : (p input s).2.cursor ≤ input.tokens.size := hw.le_size (hs ▸ hi)
  obtain ⟨hw', hr⟩ := hf (p input s).1 (p input s).2.cursor (hs ▸ hw.cursor_le) (p input s).2 rfl
    (hw.scopes.trans hscopes) hj
  refine ⟨hw.trans hw', fun hsilent => ?_⟩
  obtain ⟨hfirst, hsecond⟩ := hw.silent hw' hsilent
  exact hr hsecond (hq hfirst)

theorem map {g : α → β} (h : ReadsFrom input scopes i p fun a j => R (g a) j) :
    ReadsFrom input scopes i (g <$> p) R :=
  h

/-- A reader that only looks, and another one after it. -/
theorem look {g : Input → State → α} (hf : ∀ a, ReadsFrom input scopes i (f a) R) :
    ReadsFrom input scopes i (looking g >>= f) R := by
  intro s hs hscopes hi
  exact hf _ s hs hscopes hi

/-- A reader that only looks at the place. -/
theorem here {q : Parser α} (g : Nat → α) (hq : ∀ s, q input s = (g s.cursor, s))
    (hf : ReadsFrom input scopes i (f (g i)) R) : ReadsFrom input scopes i (q >>= f) R := by
  intro s hs hscopes hi
  rw [run_look (hq s), hs]
  exact hf s hs hscopes hi

theorem cursor {f : Nat → Parser β} (hf : ReadsFrom input scopes i (f i) R) :
    ReadsFrom input scopes i (cursor >>= f) R :=
  here id (fun _ => rfl) hf

theorem read {f : Input → Parser β} (hf : ReadsFrom input scopes i (f input) R) :
    ReadsFrom input scopes i (read >>= f) R :=
  hf

theorem get {f : State → Parser β}
    (hf : ∀ s : State, s.scopes = scopes → ReadsFrom input scopes i (f s) R) :
    ReadsFrom input scopes i (get >>= f) R := by
  intro s hs hscopes hi
  exact hf s hscopes s hs hscopes hi

theorem kind {f : Kind → Parser β} (hf : ReadsFrom input scopes i (f (input.kind i)) R) :
    ReadsFrom input scopes i (kind >>= f) R :=
  here input.kind (fun _ => rfl) hf

theorem peek {f : Option Token → Parser β}
    (hf : ReadsFrom input scopes i (f input.tokens[i]?) R) :
    ReadsFrom input scopes i (peek? >>= f) R :=
  here (input.tokens[·]?) (fun _ => rfl) hf

theorem check {f : Bool → Parser β} {wanted : Kind}
    (hf : ReadsFrom input scopes i (f (decide (input.kind i = wanted))) R) :
    ReadsFrom input scopes i (check wanted >>= f) R :=
  here (fun i => decide (input.kind i = wanted)) (fun _ => rfl) hf

/-- Passing a token. -/
theorem advance {f : Unit → Parser β} (h : input.kind i ≠ .eof)
    (hf : ReadsFrom input scopes (i + 1) (f ()) R) :
    ReadsFrom input scopes i (advance >>= f) R := by
  intro s hs hscopes hi
  have hrun : (Parser.advance >>= f) input s =
      f () input { s with cursor := input.after s.cursor } := rfl
  have hafter : input.after s.cursor = i + 1 := by
    rw [hs]
    exact if_neg h
  rw [hrun, hafter]
  have hsize : i + 1 ≤ input.tokens.size := Input.lt_size_of_kind h
  obtain ⟨hw, hr⟩ := hf { s with cursor := i + 1 } rfl hscopes hsize
  refine ⟨⟨?_, fun _ => hw.le_size hsize, hw.errors, hw.scopes⟩, hr⟩
  rw [hs]
  exact Nat.le_trans (Nat.le_succ i) hw.cursor_le

theorem takeText {f : String → Parser β} {t : Token} (ht : input.tokens[i]? = some t)
    (hk : t.kind ≠ .eof) (hf : ReadsFrom input scopes (i + 1) (f t.text) R) :
    ReadsFrom input scopes i (takeText >>= f) R := by
  have hkind : input.kind i ≠ .eof := by
    rw [Input.kind_of_token ht]
    exact hk
  unfold Parser.takeText
  rw [bind_assoc]
  refine peek ?_
  rw [ht]
  show ReadsFrom input scopes i (do Parser.advance; f t.text) R
  exact advance hkind hf

/-- After an error nothing is asked for any more. -/
theorem report {f : Unit → Parser β} {fault : Fault} {span : Span}
    (hf : ReadsFrom input scopes i (f ()) fun _ _ => True) :
    ReadsFrom input scopes i (report fault span >>= f) R := by
  intro s hs hscopes hi
  obtain ⟨hw, -⟩ := hf { s with errors := s.errors ++ [⟨fault, span⟩] } hs hscopes hi
  have hgrows : s.errors ++ [⟨fault, span⟩] <+:
      ((Parser.report fault span >>= f) input s).2.errors := hw.errors
  refine ⟨⟨hw.cursor_le, hw.le_size, (List.prefix_append _ _).trans hgrows, hw.scopes⟩, ?_⟩
  intro hsilent
  rw [hsilent] at hgrows
  have hlen := hgrows.length_le
  rw [List.length_append, List.length_singleton] at hlen
  omega

theorem reportExpected {f : Unit → Parser β} {expected : Expected}
    (hf : ReadsFrom input scopes i (f ()) fun _ _ => True) :
    ReadsFrom input scopes i (reportExpected expected >>= f) R := by
  unfold Parser.reportExpected
  rw [bind_assoc]
  refine look fun span => ?_
  rw [bind_assoc]
  refine look fun token => ?_
  cases token with
  | none => exact report hf
  | some token =>
    dsimp only
    split
    · exact report hf
    · exact report hf

/-- There is nothing to read behind the last token. -/
theorem past_end (h : input.tokens.size < i) : ReadsFrom input scopes i p Q :=
  fun _ _ _ hi => absurd hi (Nat.not_le_of_lt h)

/-- A loop gets as many rounds as it can need. -/
theorem bounded {loop : Nat → Parser α}
    (h : ∀ rounds, input.tokens.size < i + rounds → ReadsFrom input scopes i (loop rounds) Q) :
    ReadsFrom input scopes i (bounded loop) Q := by
  intro s hs hscopes hi
  refine h _ ?_ s hs hscopes hi
  unfold Input.left
  omega

/-- A token of a kind is passed if it stands here. -/
theorem accept {f : Bool → Parser β} {wanted : Kind} (hw : wanted ≠ .eof)
    (htrue : input.kind i = wanted → ReadsFrom input scopes (i + 1) (f true) R)
    (hfalse : input.kind i ≠ wanted → ReadsFrom input scopes i (f false) R) :
    ReadsFrom input scopes i (accept wanted >>= f) R := by
  unfold Parser.accept
  rw [bind_assoc]
  refine check ?_
  by_cases h : input.kind i = wanted
  · rw [decide_eq_true h]
    show ReadsFrom input scopes i (do Parser.advance; f true) R
    exact advance (h ▸ hw) (htrue h)
  · rw [decide_eq_false h]
    exact hfalse h

/-- A token of a kind is passed, or an error is recorded. -/
theorem expect {f : Option Token → Parser β} {wanted : Kind} {expected : Expected}
    (hw : wanted ≠ .eof)
    (hsome : ∀ t, input.tokens[i]? = some t → t.kind = wanted →
      ReadsFrom input scopes (i + 1) (f (some t)) R)
    (hnone : ReadsFrom input scopes i (f none) fun _ _ => True) :
    ReadsFrom input scopes i (expect wanted expected >>= f) R := by
  have hmissing : ReadsFrom input scopes i (do Parser.reportExpected expected; f none) R :=
    reportExpected hnone
  unfold Parser.expect
  rw [bind_assoc]
  refine peek ?_
  cases ht : input.tokens[i]? with
  | none => exact hmissing
  | some t =>
    dsimp only
    split
    · next h =>
      have hk : input.kind i ≠ .eof := by
        rw [Input.kind_of_token ht, h]
        exact hw
      show ReadsFrom input scopes i (do Parser.advance; f (some t)) R
      exact advance hk (hsome t ht h)
    · exact hmissing

end ReadsFrom

/-! ### What is read -/

/-- The tokens from `start` up to `i` spell the operand, and what follows belongs to it only if it is
a field of something closed. -/
structure Operand (input : Input) (scopes : Scopes) (start : Nat) (e : Expr) (i : Nat) : Prop where
  /-- The tokens spell it. -/
  spelled : Spelled scopes e (input.between start i)
  /-- Its operators are nested by precedence. -/
  nested : e.ByPrecedence
  /-- It is no operation of two operands. -/
  single : e.operator? = none
  /-- An operator that follows could not have been taken in. -/
  stops : ∀ op, (input.kind i).binaryOp? = some op → op.precedence.rank < e.reach
  /-- A field that follows belongs to all of it. -/
  closed : input.kind i = .backslash → e.isClosed = true

/-- The tokens from `start` up to `i` spell the expression, whose operators bind at least as tightly
as the level, and what follows does not belong to it. -/
structure Tree (input : Input) (scopes : Scopes) (level : Precedence) (start : Nat) (e : Expr)
    (i : Nat) : Prop where
  /-- The tokens spell it. -/
  spelled : Spelled scopes e (input.between start i)
  /-- Its operators are nested by precedence. -/
  nested : e.ByPrecedence
  /-- Its operators bind tightly enough. -/
  atLeast : e.AtLeast level
  /-- An operator that follows binds too loosely. -/
  below : ∀ op, (input.kind i).binaryOp? = some op → op.precedence.rank < level.rank
  /-- An operator that follows could not have been taken in. -/
  stops : ∀ op, (input.kind i).binaryOp? = some op → op.precedence.rank < e.reach
  /-- No field follows. -/
  ends : input.kind i ≠ .backslash

section

variable {start : Nat} {e : Expr}

theorem rank_lt_of_isClosed (h : e.isClosed = true) (op : BinaryOp) :
    op.precedence.rank < e.reach := by
  have hreach : e.reach = Precedence.unary.rank + 1 := by
    cases e <;> first | rfl | exact absurd h Bool.false_ne_true
  rw [hreach]
  cases op <;> decide

theorem single_of_isClosed (h : e.isClosed = true) : e.operator? = none := by
  cases e <;> first | rfl | exact absurd h Bool.false_ne_true

/-- Something closed is an operand wherever it stands. -/
theorem Operand.of_closed (hspelled : Spelled scopes e (input.between start i))
    (hnested : e.ByPrecedence) (hclosed : e.isClosed = true) :
    Operand input scopes start e i :=
  ⟨hspelled, hnested, single_of_isClosed hclosed, fun op _ => rank_lt_of_isClosed hclosed op,
    fun _ => hclosed⟩

/-- Nodes whose own conditions hold anyway. -/
theorem byPrecedence_of_parts (hown : e.Nested ∧ e.Greedy)
    (hparts : ∀ part ∈ e.parts, part.ByPrecedence) : e.ByPrecedence :=
  Expr.byPrecedence_iff.mpr ⟨hown, hparts⟩

theorem byPrecedence_of_leaf (hown : e.Nested ∧ e.Greedy) (hparts : e.parts = []) :
    e.ByPrecedence := by
  refine byPrecedence_of_parts hown ?_
  rw [hparts]
  exact List.forall_mem_nil _

theorem Operand.of_leaf (hspelled : Spelled scopes e (input.between start i))
    (hown : e.Nested ∧ e.Greedy) (hparts : e.parts = []) (hclosed : e.isClosed = true) :
    Operand input scopes start e i :=
  .of_closed hspelled (byPrecedence_of_leaf hown hparts) hclosed

/-! ### Nodes -/

theorem node_from {make : Info → Expr} (hmake : ∀ i j, (make i).withInfo j = make j) :
    ReadsFrom input scopes i (node start make) fun e j => j = i ∧ ∃ info, e = make info := by
  intro s hs _ _
  exact ⟨.refl input s, fun _ => ⟨hs, _, hmake _ _⟩⟩

/-- A node and what comes after it. -/
theorem ReadsFrom.node {make : Info → Expr} {f : Expr → Parser β}
    (hmake : ∀ i j, (make i).withInfo j = make j)
    (hf : ∀ info, ReadsFrom input scopes i (f (make info)) R) :
    ReadsFrom input scopes i (node start make >>= f) R := by
  intro s hs hscopes hi
  have hrun : (Parser.node start make >>= f) input s =
      f ((make { span := input.spanFrom start s.cursor }).typed s.scopes input.commands) input s :=
    rfl
  rw [hrun, Expr.typed, Expr.withType, hmake]
  exact hf _ s hs hscopes hi

theorem errorHere_from : ReadsFrom input scopes i errorHere fun _ _ => True :=
  fun s _ _ _ => ⟨.refl input s, fun _ => trivial⟩

theorem errorFrom_from : ReadsFrom input scopes i (errorFrom start) fun _ _ => True :=
  fun s _ _ _ => ⟨.refl input s, fun _ => trivial⟩

/-- The name of a type right behind a name. -/
theorem typeTag_from {t : Token} (ht : input.tokens[i]? = some t) :
    ReadsFrom input scopes (i + 1) typeTag fun tag j =>
      tag.elim (j = i + 1) fun name =>
        ∃ u, input.tokens[i + 1]? = some u ∧ u.kind = .label ∧ u.span.start = t.span.stop ∧
          name = u.text ∧ j = i + 2 := by
  refine .read (.cursor (.cursor ?_))
  cases hu : input.tokens[i + 1]? with
  | none => exact .pure rfl
  | some u =>
    dsimp only
    rw [ht]
    split
    · next h =>
      obtain ⟨hkind, hfollows⟩ := h
      have hk : input.kind (i + 1) ≠ .eof := by
        rw [Input.kind_of_token hu, hkind]
        decide
      have hstart : u.span.start = t.span.stop := by simpa using hfollows
      exact .advance hk (.pure ⟨u, rfl, hkind, hstart, rfl, rfl⟩)
    · exact .pure rfl

/-- The name of a type that is known. -/
theorem typeName_from :
    ReadsFrom input scopes i typeName fun name j =>
      ∃ t, input.tokens[i]? = some t ∧ t.kind = .identifier ∧ scopes.isType t.text = true ∧
        name = some t.text ∧ j = i + 1 := by
  refine .expect (by decide) (fun t ht hkind => .get fun s hs => ?_) (.pure trivial)
  split
  · next h => exact .pure ⟨t, ht, hkind, hs ▸ h, rfl, rfl⟩
  · exact .report (.pure trivial)

/-! ### Fields -/

theorem fieldChain_from (rounds : Nat) : ∀ {i : Nat} {e : Expr}, start ≤ i →
    input.tokens.size < i + rounds →
    ReadsFrom input scopes i (fieldChain start rounds e) fun e' j =>
      Operand input scopes start e i →
        Operand input scopes start e' j ∧ input.kind j ≠ .backslash := by
  induction rounds with
  | zero => exact fun _ hi => .past_end hi
  | succ rounds ih =>
    intro i e hstart hi
    refine .accept (by decide) (fun hback => ?_) fun hback => .pure fun h => ⟨h, hback⟩
    -- the name behind the backslash
    refine .check (.check ?_)
    split
    · next hname =>
      have hname : input.kind (i + 1) = .identifier ∨ input.kind (i + 1) = .command := by
        simpa using hname
      have hk : input.kind (i + 1) ≠ .eof := by
        rcases hname with h | h <;> rw [h] <;> decide
      obtain ⟨t, ht, hkt⟩ := Input.token_of_kind (by rw [hback]; decide : input.kind i ≠ .eof)
      obtain ⟨u, hu, hku⟩ := Input.token_of_kind hk
      refine .takeText hu (hku ▸ hk) (.node (fun _ _ => rfl) fun info => ?_)
      refine (ih (by omega) (by omega)).imp fun e' j _ hnext hop => hnext ?_
      have hclosed : e.isClosed = true := hop.closed hback
      refine .of_closed ?_ ?_ rfl
      · rw [Input.between_concat hu (by omega), Input.between_concat ht hstart,
          List.append_assoc]
        exact .field hop.spelled (hkt.trans hback) (hku ▸ hname)
      · refine byPrecedence_of_parts ⟨hop.single, hclosed⟩ ?_
        exact List.forall_mem_singleton.mpr hop.nested
    · exact .reportExpected errorFrom_from

theorem withFields_from (hstart : start ≤ i) :
    ReadsFrom input scopes i (withFields start e) fun e' j =>
      Operand input scopes start e i →
        Operand input scopes start e' j ∧ input.kind j ≠ .backslash :=
  .bounded fun rounds hrounds => fieldChain_from rounds hstart hrounds

/-! ### What cannot be read -/

theorem badExpression_from {Q : Expr → Nat → Prop} :
    ReadsFrom input scopes i (badExpression start) Q := by
  refine .look fun span => .peek ?_
  extract_lets finish skip
  have hskip : ReadsFrom input scopes i (skip ()) fun _ _ => True := by
    refine .look fun stays => ?_
    split
    · exact errorFrom_from
    · by_cases hk : input.kind i = .eof
      · -- the end of the input is not passed
        intro s hs hscopes hi
        have hstay : input.after s.cursor = s.cursor := if_pos (hs ▸ hk)
        have hrun : (do advance; errorFrom start : Parser Expr) input s =
            errorFrom start input { s with cursor := input.after s.cursor } := rfl
        rw [hrun, hstay]
        exact errorFrom_from s hs hscopes hi
      · exact .advance hk errorFrom_from
  cases input.tokens[i]? with
  | none => exact .report hskip
  | some token =>
    dsimp only
    split
    · exact .report hskip
    · exact .report hskip

/-- A number, where nothing is asked of a text that is none. -/
theorem number_from {ε : Type} {value : Except ε α} {make : α → Info → Expr} {fault : ε → Fault}
    (hmake : ∀ a i j, (make a i).withInfo j = make a j) :
    ReadsFrom input scopes i (number start value make fault) fun e j =>
      j = i ∧ ∃ a info, value = .ok a ∧ e = make a info := by
  cases value with
  | ok a =>
    refine (node_from (hmake a)).imp fun e j _ h => ?_
    obtain ⟨hj, info, he⟩ := h
    exact ⟨hj, a, info, rfl, he⟩
  | error e =>
    refine .look fun span => .report ?_
    exact (node_from fun _ _ => rfl).imp fun _ _ _ _ => trivial

/-! ### Arguments -/

section Arguments

variable {expr : Parser Expr}

theorem separated_from (rounds : Nat) : ∀ {i : Nat}, input.tokens.size < i + rounds →
    (∀ j, i ≤ j → ReadsFrom input scopes j expr (Tree input scopes .or j)) →
    ReadsFrom input scopes i (separated expr rounds) fun es j =>
      SpelledList scopes es (input.between i j) ∧ ∀ e ∈ es, e.ByPrecedence := by
  induction rounds with
  | zero => exact fun hi _ => .past_end hi
  | succ rounds ih =>
    intro i hi hexpr
    refine (hexpr i (Nat.le_refl i)).bind fun first j hij => ?_
    refine .accept (by decide) (fun hcomma => ?_) fun _ => .pure fun hfirst => ?_
    · obtain ⟨t, ht, hkt⟩ := Input.token_of_kind (by rw [hcomma]; decide : input.kind j ≠ .eof)
      refine (ih (i := j + 1) (by omega) fun k hk => hexpr k (by omega)).bind fun rest k hjk => ?_
      refine .pure fun hrest hfirst => ?_
      obtain ⟨hspelled, hnested⟩ := hrest
      refine ⟨?_, List.forall_mem_cons.mpr ⟨hfirst.nested, hnested⟩⟩
      rw [← Input.between_append hij (by omega : j ≤ k), Input.between_cons ht hjk]
      exact .cons hfirst.spelled (hkt.trans hcomma) hspelled
    · exact ⟨.one hfirst.spelled, List.forall_mem_singleton.mpr hfirst.nested⟩

theorem parenArgs_from
    (hexpr : ∀ j, i < j → ReadsFrom input scopes j expr (Tree input scopes .or j)) :
    ReadsFrom input scopes i (parenArgs expr) fun args j =>
      SpelledArgs scopes args (input.between i j) ∧ ∀ e ∈ args, e.ByPrecedence := by
  refine .expect (by decide) (fun t ht hkt => ?_) (.pure trivial)
  refine .accept (by decide) (fun hclose => .pure ?_) fun _ => ?_
  · obtain ⟨u, hu, hku⟩ := Input.token_of_kind
      (by rw [hclose]; decide : input.kind (i + 1) ≠ .eof)
    rw [Input.between_cons ht (by omega), Input.between_token hu]
    exact ⟨.none hkt (hku.trans hclose), List.forall_mem_nil _⟩
  · refine (ReadsFrom.bounded fun rounds hrounds =>
      separated_from rounds hrounds fun j hj => hexpr j hj).bind fun args j hij => ?_
    refine .expect (by decide) (fun u hu hku => .pure fun h => ?_)
      (.pure trivial)
    obtain ⟨hspelled, hnested⟩ := h
    rw [Input.between_cons ht (by omega), Input.between_concat hu hij]
    exact ⟨.some hkt hspelled hku, hnested⟩

theorem nameExpr_from
    (hexpr : ∀ j, i < j → ReadsFrom input scopes j expr (Tree input scopes .or j)) :
    ReadsFrom input scopes i (nameExpr expr) fun e j =>
      Operand input scopes i e j ∧ input.kind j ≠ .backslash := by
  refine .cursor (.expect (by decide) (fun t ht hkt => ?_) errorHere_from)
  refine (typeTag_from ht).bind fun tag j hj => ?_
  extract_lets fields
  have hfields : ∀ {e : Expr} {k : Nat}, i ≤ k →
      ReadsFrom input scopes k (fields e) fun e' l => Operand input scopes i e k →
        Operand input scopes i e' l ∧ input.kind l ≠ .backslash :=
    fun hik => withFields_from hik
  cases tag with
  | some name =>
    refine .node (fun _ _ => rfl) fun info => (hfields (by omega)).imp fun e k _ hk htag => hk ?_
    obtain ⟨u, hu, hku, hnext, rfl, rfl⟩ := htag
    refine .of_leaf ?_ ⟨trivial, trivial⟩ rfl rfl
    rw [Input.between_cons ht (by omega), Input.between_token hu]
    exact .tagged hkt hku hnext
  | none =>
    refine .check ?_
    split
    · refine (parenArgs_from fun k hk => hexpr k (by omega)).bind fun args k hjk => ?_
      refine .get fun s hs => ?_
      rw [hs]
      split <;>
      · next harray =>
        refine .node (fun _ _ => rfl) fun info => (hfields (by omega)).imp fun e l _ hl h htag => hl ?_
        obtain rfl : j = i + 1 := htag
        refine .of_closed ?_ (byPrecedence_of_parts ⟨trivial, trivial⟩ h.2) rfl
        rw [Input.between_cons ht hjk]
        first
        | exact .element hkt harray h.1
        | exact .call hkt (Bool.eq_false_iff.mpr harray) h.1
    · refine .node (fun _ _ => rfl) fun info => (hfields (by omega)).imp fun e k _ hk htag => hk ?_
      obtain rfl : j = i + 1 := htag
      refine .of_leaf ?_ ⟨trivial, trivial⟩ rfl rfl
      rw [Input.between_token ht]
      exact .var hkt

theorem checkArguments_from (name : String) (args : List Expr) :
    ReadsFrom input scopes i (checkArguments name args) fun _ j => j = i := by
  refine .read ?_
  generalize Option.elim _ _ _ = found
  -- the wrong arguments are reported one by one
  induction found with
  | nil => exact .pure rfl
  | cons first rest ih => exact .report (ih.imp fun _ _ _ _ => trivial)

theorem commandExpr_from {t : Token} (ht : input.tokens[i]? = some t) (hkt : t.kind = .command)
    (hexpr : ∀ j, i < j → ReadsFrom input scopes j expr (Tree input scopes .or j)) :
    ReadsFrom input scopes i (commandExpr expr) fun e j =>
      Operand input scopes i e j ∧ input.kind j ≠ .backslash := by
  refine .cursor (.takeText ht (hkt ▸ by decide) (.check ?_))
  extract_lets finish
  -- the arguments, once they are read, with the tokens that spell them behind the name
  have hfinish : ∀ {args : List Expr} {j : Nat}, i ≤ j →
      ReadsFrom input scopes j (finish args) fun e k =>
        (∀ info, Spelled scopes (.command info t.text args) (input.between i j)) →
        (∀ e ∈ args, e.ByPrecedence) →
        Operand input scopes i e k ∧ input.kind k ≠ .backslash := by
    intro args j hij
    refine ReadsFrom.bind (Q := fun e k => k = j ∧ ∃ info, e = .command info t.text args) ?_ ?_
    · refine (checkArguments_from t.text args).bind fun _ k _ => ?_
      refine (node_from fun _ _ => rfl).imp fun e l _ h hk => ?_
      exact ⟨h.1.trans hk, h.2⟩
    · intro e k hjk
      refine (withFields_from (by omega)).imp fun e' l _ hl he hspelled hargs => hl ?_
      obtain ⟨rfl, info, rfl⟩ := he
      exact .of_closed (hspelled info) (byPrecedence_of_parts ⟨trivial, trivial⟩ hargs) rfl
  split
  · refine (parenArgs_from fun j hj => hexpr j (by omega)).bind fun args j hj => ?_
    refine (hfinish (by omega)).imp fun e k _ hk h => hk (fun info => ?_) h.2
    rw [Input.between_cons ht hj]
    exact .command hkt h.1
  · refine (hfinish (by omega)).imp fun e k _ hk => hk (fun info => ?_) (List.forall_mem_nil _)
    rw [Input.between_token ht]
    exact .bareCommand hkt

end Arguments

/-! ### Operands and operators -/

section Operands

variable {inner : Precedence → Parser Expr}

/-- An operator or a word before an operand of a level, which takes in what follows it. -/
theorem Operand.of_tree {t : Token} {level : Precedence} {operand : Expr} {j : Nat}
    (ht : input.tokens[i]? = some t) (hij : i + 1 ≤ j)
    (hop : Tree input scopes level (i + 1) operand j)
    (hspelled : Spelled scopes e (t :: input.between (i + 1) j)) (hparts : e.parts = [operand])
    (hown : e.Nested ∧ e.Greedy) (hsingle : e.operator? = none)
    (hreach : e.reach = min level.rank operand.reach) :
    Operand input scopes i e j where
  spelled := by
    rw [Input.between_cons ht hij]
    exact hspelled
  nested := by
    refine byPrecedence_of_parts hown ?_
    rw [hparts]
    exact List.forall_mem_singleton.mpr hop.nested
  single := hsingle
  stops := by
    intro op h
    rw [hreach]
    exact Nat.lt_min.mpr ⟨hop.below op h, hop.stops op h⟩
  closed := fun h => absurd h hop.ends

/-- No operator binds as tightly as the level of an object. -/
theorem single_of_atLeast_unary (h : e.AtLeast .unary) : e.operator? = none := by
  cases hop : e.operator? with
  | none => rfl
  | some op =>
    have hrank := h op hop
    revert hrank
    cases op <;> decide

theorem someNode_from {make : Info → Expr} (hmake : ∀ i j, (make i).withInfo j = make j) :
    ReadsFrom input scopes i (some <$> node start make) fun o j =>
      j = i ∧ ∃ info, o = some (make info) := by
  refine .map ((node_from hmake).imp fun e j _ h => ?_)
  obtain ⟨hj, info, rfl⟩ := h
  exact ⟨hj, info, rfl⟩

theorem wordExpr_from {word : Keyword} {t : Token} (ht : input.tokens[i]? = some t)
    (hkt : t.kind = .keyword word)
    (hinner : ∀ level j, i < j → ReadsFrom input scopes j (inner level) (Tree input scopes level j)) :
    ReadsFrom input scopes i (wordExpr inner i word) fun o j =>
      ∀ e, o = some e → Operand input scopes i e j := by
  have hk : input.kind i ≠ .eof := by
    rw [Input.kind_of_token ht, hkt]
    exact fun h => nomatch h
  -- a word that stands alone
  have hleaf : ∀ {make : Info → Expr}, (∀ i j, (make i).withInfo j = make j) →
      (∀ info, Spelled scopes (make info) [t] ∧ ((make info).Nested ∧ (make info).Greedy) ∧
        (make info).parts = [] ∧ (make info).isClosed = true) →
      ReadsFrom input scopes i (do advance; some <$> node i make) fun o j =>
        ∀ e, o = some e → Operand input scopes i e j := by
    intro make hmake h
    refine .advance hk ((someNode_from hmake).imp fun o j _ ho e he => ?_)
    obtain ⟨rfl, info, rfl⟩ := ho
    cases he
    obtain ⟨hspelled, hown, hparts, hclosed⟩ := h info
    exact .of_leaf (Input.between_token ht ▸ hspelled) hown hparts hclosed
  -- a word before an operand
  have hprefix : ∀ {make : Expr → Info → Expr} {level : Precedence},
      (∀ e i j, (make e i).withInfo j = make e j) →
      (∀ e info ts, Spelled scopes e ts → Spelled scopes (make e info) (t :: ts)) →
      (∀ e info, e.AtLeast level → ((make e info).Nested ∧ (make e info).Greedy) ∧
        (make e info).parts = [e] ∧ (make e info).operator? = none ∧
        (make e info).reach = min level.rank e.reach) →
      ReadsFrom input scopes i (do
        advance
        let operand ← inner level
        some <$> node i (make operand)) fun o j =>
          ∀ e, o = some e → Operand input scopes i e j := by
    intro make level hmake hspelled h
    refine .advance hk ((hinner level (i + 1) (Nat.lt_succ_self i)).bind fun operand j hj => ?_)
    refine (someNode_from (hmake operand)).imp fun o k _ ho hop e he => ?_
    obtain ⟨rfl, info, rfl⟩ := ho
    cases he
    obtain ⟨hown, hparts, hsingle, hreach⟩ := h operand info hop.atLeast
    exact .of_tree ht hj hop (hspelled _ _ _ hop.spelled) hparts hown hsingle hreach
  -- a word before the name of a type
  have htype : ∀ {make : String → Info → Expr} {k : Option String → Parser (Option Expr)},
      k none = Pure.pure none → (∀ name, k (some name) = some <$> node i (make name)) →
      (∀ name i j, (make name i).withInfo j = make name j) →
      (∀ u info, u.kind = .identifier → scopes.isType u.text = true →
        Spelled scopes (make u.text info) [t, u]) →
      (∀ name info, ((make name info).Nested ∧ (make name info).Greedy) ∧
        (make name info).parts = [] ∧ (make name info).isClosed = true) →
      ReadsFrom input scopes i (do advance; k (← typeName)) fun o j =>
        ∀ e, o = some e → Operand input scopes i e j := by
    intro make k hnone hsome hmake hspelled h
    refine .advance hk (typeName_from.bind fun name j _ => ?_)
    cases name with
    | none =>
      rw [hnone]
      refine .pure fun hname => ?_
      obtain ⟨u, -, -, -, hname, -⟩ := hname
      cases hname
    | some name =>
      rw [hsome]
      refine (someNode_from (hmake name)).imp fun o k _ ho hname e he => ?_
      obtain ⟨rfl, info, rfl⟩ := ho
      cases he
      obtain ⟨u, hu, hku, hknown, hname, rfl⟩ := hname
      cases hname
      obtain ⟨hown, hparts, hclosed⟩ := h u.text info
      refine .of_leaf ?_ hown hparts hclosed
      rw [Input.between_cons ht (by omega), Input.between_token hu]
      exact hspelled u info hku hknown
  unfold wordExpr
  split
  case h_1 | h_2 =>
    exact hleaf (fun _ _ => rfl) fun _ => ⟨.boolean hkt, ⟨trivial, trivial⟩, rfl, rfl⟩
  · exact hleaf (fun _ _ => rfl) fun _ => ⟨.null hkt, ⟨trivial, trivial⟩, rfl, rfl⟩
  · refine hprefix (fun _ _ _ => rfl) (fun _ _ _ => .unary hkt) fun e info h => ?_
    exact ⟨⟨Expr.nested_unary h, trivial⟩, rfl, rfl, rfl⟩
  · exact htype rfl (fun _ => rfl) (fun _ _ _ => rfl) (fun _ _ => .new hkt)
      fun _ _ => ⟨⟨trivial, trivial⟩, rfl, rfl⟩
  · exact htype rfl (fun _ => rfl) (fun _ _ _ => rfl) (fun _ _ => .first hkt)
      fun _ _ => ⟨⟨trivial, trivial⟩, rfl, rfl⟩
  · exact htype rfl (fun _ => rfl) (fun _ _ _ => rfl) (fun _ _ => .last hkt)
      fun _ _ => ⟨⟨trivial, trivial⟩, rfl, rfl⟩
  · refine hprefix (fun _ _ _ => rfl) (fun _ _ _ => .after hkt) fun e info h => ?_
    exact ⟨⟨single_of_atLeast_unary h, trivial⟩, rfl, rfl, rfl⟩
  · refine hprefix (fun _ _ _ => rfl) (fun _ _ _ => .before hkt) fun e info h => ?_
    exact ⟨⟨single_of_atLeast_unary h, trivial⟩, rfl, rfl, rfl⟩
  · exact .pure fun _ h => nomatch h

/-- An operand.  The inner reader has to be good only behind the first token. -/
theorem primary_from
    (hinner : ∀ level j, i < j → ReadsFrom input scopes j (inner level) (Tree input scopes level j)) :
    ReadsFrom input scopes i (primary inner) fun e j =>
      Operand input scopes i e j ∧ input.kind j ≠ .backslash := by
  refine .cursor (.peek ?_)
  cases ht : input.tokens[i]? with
  | none => exact .reportExpected errorHere_from
  | some t =>
    have hkind : input.kind i = t.kind := Input.kind_of_token ht
    have hone : input.between i (i + 1) = [t] := Input.between_token ht
    -- a number, of which only the value matters
    have hnumber : ∀ {ε α : Type} {value : Except ε α} {make : α → Info → Expr} {fault : ε → Fault},
        input.kind i ≠ .eof → (∀ a i j, (make a i).withInfo j = make a j) →
        (∀ a info, value = .ok a → Spelled scopes (make a info) [t] ∧
          ((make a info).Nested ∧ (make a info).Greedy) ∧ (make a info).parts = [] ∧
          (make a info).isClosed = true) →
        ReadsFrom input scopes i (do
          advance
          withFields i (← number i value make fault)) fun e j =>
            Operand input scopes i e j ∧ input.kind j ≠ .backslash := by
      intro ε α value make fault hk hmake h
      refine .advance hk ((number_from hmake).bind fun e j hj => ?_)
      refine (withFields_from (by omega)).imp fun e' k _ hk he => hk ?_
      obtain ⟨rfl, a, info, hvalue, rfl⟩ := he
      obtain ⟨hspelled, hown, hparts, hclosed⟩ := h a info hvalue
      exact .of_leaf (hone ▸ hspelled) hown hparts hclosed
    -- a sign, which takes in powers
    have hsign : ∀ op : UnaryOp, op ≠ .not → t.kind = op.kind →
        ReadsFrom input scopes i (do
          advance
          let operand ← inner .power
          withFields i (← node i (.unary · op operand))) fun e j =>
            Operand input scopes i e j ∧ input.kind j ≠ .backslash := by
      intro op hop hkt
      have hk : input.kind i ≠ .eof := by
        rw [hkind, hkt]
        cases op <;> decide
      refine .advance hk ((hinner .power (i + 1) (Nat.lt_succ_self i)).bind fun operand j hj => ?_)
      refine .node (fun _ _ => rfl) fun info => ?_
      refine (withFields_from (by omega)).imp fun e' k _ hk htree => hk ?_
      refine .of_tree ht hj htree (.unary hkt htree.spelled) rfl ⟨?_, trivial⟩ rfl ?_
      · refine Expr.nested_unary ?_
        rw [if_neg hop]
        exact htree.atLeast
      · cases op with
        | not => exact absurd rfl hop
        | negate => rfl
        | plus => rfl
    dsimp only
    split
    · next hkt =>
      refine hnumber (hkind ▸ hkt ▸ by decide) (fun _ _ _ => rfl) fun n info h => ?_
      exact ⟨.whole hkt h, ⟨trivial, trivial⟩, rfl, rfl⟩
    · next hkt =>
      refine hnumber (hkind ▸ hkt ▸ by decide) (fun _ _ _ => rfl) fun x info h => ?_
      exact ⟨.float hkt h, ⟨trivial, trivial⟩, rfl, rfl⟩
    · next hkt =>
      refine hnumber (hkind ▸ hkt ▸ by decide) (fun _ _ _ => rfl) fun n info h => ?_
      refine ⟨.hex hkt ?_, ⟨trivial, trivial⟩, rfl, rfl⟩
      cases hvalue : readHex t.text with
      | none => rw [hvalue] at h; cases h
      | some value => rw [hvalue] at h; cases h; rfl
    · next hkt =>
      refine .advance (hkind ▸ hkt ▸ by decide) (.node (fun _ _ => rfl) fun info => ?_)
      refine (withFields_from (by omega)).imp fun e' k _ hk => hk ?_
      exact .of_leaf (hone ▸ .string hkt) ⟨trivial, trivial⟩ rfl rfl
    · exact nameExpr_from (hinner .or)
    · next hkt => exact commandExpr_from ht hkt (hinner .or)
    · next hkt =>
      refine .advance (hkind ▸ hkt ▸ by decide) ?_
      refine (hinner .or (i + 1) (Nat.lt_succ_self i)).bind fun e j hj => ?_
      refine .expect (by decide) (fun u hu hku => ?_) ?_
      · refine .node (fun _ _ => rfl) fun info => ?_
        refine (withFields_from (by omega)).imp fun e' k _ hk htree => hk ?_
        refine .of_closed ?_ (byPrecedence_of_parts ⟨trivial, trivial⟩ ?_) rfl
        · rw [Input.between_cons ht (by omega), Input.between_concat hu hj]
          exact .grouped hkt htree.spelled hku
        · exact List.forall_mem_singleton.mpr htree.nested
      · refine .node (fun _ _ => rfl) fun info => ?_
        exact (withFields_from (by omega)).imp fun _ _ _ _ => trivial
    · next hkt => exact hsign .negate (by decide) hkt
    · next hkt => exact hsign .plus (by decide) hkt
    · next word hkt =>
      refine (wordExpr_from ht hkt hinner).bind fun o j hj => ?_
      cases o with
      | none => exact badExpression_from
      | some e => exact (withFields_from (by omega)).imp fun e' k _ hk h => hk (h e rfl)
    · exact badExpression_from

theorem climb_from {level : Precedence} (rounds : Nat) : ∀ {i : Nat} {left : Expr}, start ≤ i →
    input.tokens.size < i + rounds →
    (∀ level j, i < j → ReadsFrom input scopes j (inner level) (Tree input scopes level j)) →
    ReadsFrom input scopes i (climb inner level start rounds left) fun e j =>
      Spelled scopes left (input.between start i) → left.ByPrecedence → left.AtLeast level →
      (∀ op, (input.kind i).binaryOp? = some op → op.precedence.rank < left.reach) →
      input.kind i ≠ .backslash → Tree input scopes level start e j := by
  induction rounds with
  | zero => exact fun _ hi _ => .past_end hi
  | succ rounds ih =>
    intro i left hstart hi hinner
    refine .kind ?_
    cases hop : (input.kind i).binaryOp? with
    | none =>
      refine .pure fun hspelled hnested hlevel hstops hends => ?_
      have hnone : ∀ op, (input.kind i).binaryOp? = some op → False := by
        intro op h
        rw [hop] at h
        cases h
      exact ⟨hspelled, hnested, hlevel, fun op h => (hnone op h).elim,
        fun op h => (hnone op h).elim, hends⟩
    | some op =>
      have hk : input.kind i ≠ .eof := by
        intro h
        rw [h] at hop
        cases hop
      obtain ⟨t, ht, hkt⟩ := Input.token_of_kind hk
      dsimp only
      split
      · next hlow =>
        refine .pure fun hspelled hnested hlevel hstops hends => ?_
        refine ⟨hspelled, hnested, hlevel, fun op' h => ?_, fun op' h => ?_, hends⟩
        · rw [hop] at h
          cases h
          exact hlow
        · exact hstops op' (hop ▸ h)
      · next hhigh =>
        refine .advance hk ?_
        refine (hinner op.operandLevel (i + 1) (Nat.lt_succ_self i)).bind fun right j hj => ?_
        refine .node (fun _ _ => rfl) fun info => ?_
        refine (@ih j (.binary info left op right) (by omega) (by omega)
          fun level k hk => hinner level k (by omega)).imp ?_
        intro e k _ hnext hright hspelled hnested hlevel hstops _
        refine hnext ?_ ?_ ?_ ?_ hright.ends
        · rw [← Input.between_append hstart (by omega : i ≤ j), Input.between_cons ht hj]
          exact .binary hspelled (hkt ▸ hop) hright.spelled
        · have hleft := hstops op rfl
          refine byPrecedence_of_parts ⟨Expr.nested_binary hleft hright.atLeast, hleft⟩ ?_
          exact List.forall_mem_cons.mpr
            ⟨hnested, List.forall_mem_singleton.mpr hright.nested⟩
        · intro op' h
          cases h
          exact Nat.le_of_not_lt hhigh
        · intro op' h
          exact Nat.lt_min.mpr ⟨hright.below op' h, hright.stops op' h⟩

end Operands

/-- An expression, where the bound of the nesting is at least the number of tokens left. -/
theorem expressionAt_from (nesting : Nat) : ∀ {i : Nat} (level : Precedence),
    input.tokens.size < i + nesting →
    ReadsFrom input scopes i (expressionAt nesting level) (Tree input scopes level i) := by
  induction nesting with
  | zero => exact fun level hi => .past_end hi
  | succ nesting ih =>
    intro i level hi
    have hinner : ∀ level j, i < j →
        ReadsFrom input scopes j (expressionAt nesting level) (Tree input scopes level j) :=
      fun level j hj => ih level (by omega)
    refine .cursor ((primary_from hinner).bind fun left j hj => .bounded fun rounds hrounds => ?_)
    refine (climb_from rounds hj hrounds fun level k hk => hinner level k (by omega)).imp ?_
    intro e k _ hclimb hleft
    obtain ⟨hop, hends⟩ := hleft
    exact hclimb hop.spelled hop.nested (.of_none hop.single) hop.stops hends

/-- An expression that is read without an error is spelled by its tokens and nested by
precedence. -/
theorem expression_from :
    ReadsFrom input scopes i expression (Tree input scopes .or i) :=
  .bounded fun nesting hnesting => expressionAt_from nesting .or hnesting

end

end FrameBasic.Parser

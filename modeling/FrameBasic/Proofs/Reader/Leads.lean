import FrameBasic.Proofs.Reader.Precedence
import FrameBasic.Tree.Parser.Block

/-!
# Where reading leads

What a reader does on tokens that are known is said by running it: after some of the tokens, it goes
on like another reader, with the same errors.  The scopes may change on the way, as long as they keep
what is known of them.

## Main definitions

* `Parser.Input.Has` — some tokens stand at a place.
* `Parser.Leads` — a reader goes on like another one at a later place.
* `Parser.Finds` — a reader gives its result at a later place.

## Main results

* `Parser.Leads.trans`, `Parser.Leads.bind` — one stretch after the other.
* `Parser.Leads.accept`, `Parser.Leads.expect`, `Parser.Leads.node` — the single steps.
-/

namespace FrameBasic.Parser

/-! ### Tokens at a place -/

namespace Input

variable {input : Input} {i j : Nat}

/-- The tokens stand at a place. -/
def Has (input : Input) : Nat → List Token → Prop
  | _, [] => True
  | i, t :: ts => input.tokens[i]? = some t ∧ input.Has (i + 1) ts

theorem has_append {ts us : List Token} :
    input.Has i (ts ++ us) ↔ input.Has i ts ∧ input.Has (i + ts.length) us := by
  induction ts generalizing i with
  | nil => simp [Has]
  | cons t ts ih =>
    have hlen : i + (t :: ts).length = i + 1 + ts.length := by rw [List.length_cons]; omega
    rw [List.cons_append, Has, Has, ih, hlen, and_assoc]

theorem has_of_prefix_drop {ts : List Token} (h : ts <+: input.tokens.toList.drop i) :
    input.Has i ts := by
  induction ts generalizing i with
  | nil => trivial
  | cons t ts ih =>
    obtain ⟨rest, hrest⟩ := h
    have hget : input.tokens[i]? = some t := by
      rw [← Array.getElem?_toList, ← List.head?_drop, ← hrest]
      rfl
    refine ⟨hget, ih ⟨rest, ?_⟩⟩
    rw [← List.drop_drop, ← hrest]
    rfl

/-- Where tokens stand, there are as many. -/
theorem Has.add_length_le {ts : List Token} (h : input.Has i ts) (hi : i ≤ input.tokens.size) :
    i + ts.length ≤ input.tokens.size := by
  induction ts generalizing i with
  | nil => exact hi
  | cons t ts ih =>
    have hrest := ih h.2 (lt_size_of_token h.1)
    rw [List.length_cons]
    omega

end Input

/-! ### The judgement -/

/-- From the token `i` on, with blocks around it and scopes that `K` holds of, the reader goes on at
`j` like `q a` for an `a` that `Q` holds of.  It records no error, and `K` still holds. -/
def Leads {α β : Type} (input : Input) (K : Nat → Scopes → Prop) (i : Nat) (p : Parser β) (j : Nat)
    (q : α → Parser β) (Q : α → Prop) : Prop :=
  ∀ s : State, s.cursor = i → K s.depth s.scopes →
    ∃ a scopes, Q a ∧ K s.depth scopes ∧
      p input s = q a input { s with cursor := j, scopes := scopes }

/-- From the token `i` on, where `K` holds, the reader stops at `j` with a result that `Q` holds
of. -/
def Finds {α : Type} (input : Input) (K : Nat → Scopes → Prop) (i : Nat) (p : Parser α) (Q : α → Prop)
    (j : Nat) : Prop :=
  Leads input K i p j pure Q

/-- The scopes do not change. -/
def Keeps (scopes : Scopes) (_ : Nat) (now : Scopes) : Prop :=
  now = scopes

variable {α β γ δ : Type} {input : Input} {K : Nat → Scopes → Prop} {i j k : Nat}
variable {p p' : Parser β} {q : α → Parser β} {Q : α → Prop}

namespace Leads

/-- The reader is at the place already. -/
theorem here {a : α} (h : Q a) : Leads input K i (q a) i q Q := by
  intro s hs hK
  refine ⟨a, s.scopes, h, hK, ?_⟩
  rw [← hs]

theorem imp {Q' : α → Prop} (h : Leads input K i p j q Q) (hQ : ∀ a, Q a → Q' a) :
    Leads input K i p j q Q' := by
  intro s hs hK
  obtain ⟨a, scopes, ha, hK', hrun⟩ := h s hs hK
  exact ⟨a, scopes, hQ a ha, hK', hrun⟩

/-- One stretch after the other. -/
theorem trans {r : γ → Parser β} {R : γ → Prop} (h : Leads input K i p j q Q)
    (h' : ∀ a, Q a → Leads input K j (q a) k r R) : Leads input K i p k r R := by
  intro s hs hK
  obtain ⟨a, scopes, ha, hK', hrun⟩ := h s hs hK
  obtain ⟨c, scopes', hc, hK'', hrun'⟩ :=
    h' a ha { s with cursor := j, scopes := scopes } rfl hK'
  exact ⟨c, scopes', hc, hK'', hrun.trans hrun'⟩

/-- A stretch of the first of two readers. -/
theorem bind {f : β → Parser δ} {r : γ → Parser δ} {R : γ → Prop} (h : Leads input K i p j q Q)
    (h' : ∀ a, Q a → Leads input K j (q a >>= f) k r R) : Leads input K i (p >>= f) k r R := by
  intro s hs hK
  obtain ⟨a, scopes, ha, hK', hrun⟩ := h s hs hK
  obtain ⟨c, scopes', hc, hK'', hrun'⟩ :=
    h' a ha { s with cursor := j, scopes := scopes } rfl hK'
  refine ⟨c, scopes', hc, hK'', ?_⟩
  have hfirst : (p >>= f) input s = f (p input s).1 input (p input s).2 := rfl
  rw [hfirst, hrun]
  exact hrun'

/-- A reader that does the same here. -/
theorem look (h' : Leads input K i p' j q Q)
    (h : ∀ s : State, s.cursor = i → K s.depth s.scopes → p input s = p' input s) :
    Leads input K i p j q Q := by
  intro s hs hK
  rw [h s hs hK]
  exact h' s hs hK

section Steps

variable {r : γ → Parser δ} {R : γ → Prop}

theorem cursor {f : Nat → Parser δ} (h : Leads input K i (f i) j r R) :
    Leads input K i (cursor >>= f) j r R :=
  look h fun _ hs _ => congrArg (f · input _) hs

theorem read {f : Input → Parser δ} (h : Leads input K i (f input) j r R) :
    Leads input K i (read >>= f) j r R :=
  h

theorem get {f : State → Parser δ}
    (h : ∀ s : State, s.cursor = i → K s.depth s.scopes → Leads input K i (f s) j r R) :
    Leads input K i (get >>= f) j r R :=
  fun s hs hK => h s hs hK s hs hK

theorem peek {f : Option Token → Parser δ} (h : Leads input K i (f input.tokens[i]?) j r R) :
    Leads input K i (peek? >>= f) j r R :=
  look h fun s hs _ => congrArg (fun i => f input.tokens[i]? input s) hs

/-- The token that stands here is looked at. -/
theorem token {f : Option Token → Parser δ} {t : Token} {kind : Kind}
    (ht : input.tokens[i]? = some t) (hkt : t.kind = kind)
    (h : Leads input K i (f (some ⟨kind, t.text, t.span⟩)) j r R) :
    Leads input K i (peek? >>= f) j r R := by
  subst hkt
  refine peek ?_
  rw [ht]
  exact h

theorem kind {f : Kind → Parser δ} (h : Leads input K i (f (input.kind i)) j r R) :
    Leads input K i (kind >>= f) j r R :=
  look h fun s hs _ => congrArg (fun i => f (input.kind i) input s) hs

theorem check {f : Bool → Parser δ} {wanted : Kind}
    (h : Leads input K i (f (decide (input.kind i = wanted))) j r R) :
    Leads input K i (check wanted >>= f) j r R :=
  look h fun s hs _ => congrArg (fun i => f (decide (input.kind i = wanted)) input s) hs

/-- A token of the kind stands here. -/
theorem check_pos {f : Bool → Parser δ} {wanted : Kind} (hk : input.kind i = wanted)
    (h : Leads input K i (f true) j r R) : Leads input K i (Parser.check wanted >>= f) j r R := by
  refine check ?_
  rw [decide_eq_true hk]
  exact h

/-- No token of the kind stands here. -/
theorem check_neg {f : Bool → Parser δ} {wanted : Kind} (hk : input.kind i ≠ wanted)
    (h : Leads input K i (f false) j r R) : Leads input K i (Parser.check wanted >>= f) j r R := by
  refine check ?_
  rw [decide_eq_false hk]
  exact h

theorem moveTo {f : Unit → Parser δ} {n : Nat} (h : Leads input K n (f ()) j r R) :
    Leads input K i (moveTo n >>= f) j r R :=
  fun s _ hK => h { s with cursor := n } rfl hK

theorem advance {f : Unit → Parser δ} (hk : input.kind i ≠ .eof)
    (h : Leads input K (i + 1) (f ()) j r R) : Leads input K i (advance >>= f) j r R := by
  have hafter : input.after i = i + 1 := if_neg hk
  have hmove : Leads input K i (Parser.moveTo (i + 1) >>= f) j r R := moveTo h
  refine hmove.look fun s hs _ => ?_
  rw [← hafter, ← hs]
  rfl

theorem takeText {f : String → Parser δ} {t : Token} (ht : input.tokens[i]? = some t)
    (hk : t.kind ≠ .eof) (h : Leads input K (i + 1) (f t.text) j r R) :
    Leads input K i (takeText >>= f) j r R := by
  have hkind : input.kind i ≠ .eof := by
    rw [Input.kind_of_token ht]
    exact hk
  unfold Parser.takeText
  rw [bind_assoc]
  refine peek ?_
  rw [ht, bind_assoc]
  exact advance hkind h

/-- A token of the kind is passed. -/
theorem accept_pos {f : Bool → Parser δ} {wanted : Kind} (hw : wanted ≠ .eof)
    (hk : input.kind i = wanted) (h : Leads input K (i + 1) (f true) j r R) :
    Leads input K i (accept wanted >>= f) j r R := by
  unfold Parser.accept
  rw [bind_assoc]
  refine check_pos hk ?_
  rw [if_pos rfl, bind_assoc]
  exact advance (hk ▸ hw) h

/-- No token of the kind is passed. -/
theorem accept_neg {f : Bool → Parser δ} {wanted : Kind} (hk : input.kind i ≠ wanted)
    (h : Leads input K i (f false) j r R) : Leads input K i (accept wanted >>= f) j r R := by
  unfold Parser.accept
  rw [bind_assoc]
  refine check_neg hk ?_
  exact h

theorem expect {f : Option Token → Parser δ} {wanted : Kind} {expected : Expected} {t : Token}
    (ht : input.tokens[i]? = some t) (hkt : t.kind = wanted) (hw : wanted ≠ .eof)
    (h : Leads input K (i + 1) (f (some t)) j r R) :
    Leads input K i (expect wanted expected >>= f) j r R := by
  have hk : input.kind i ≠ .eof := by
    rw [Input.kind_of_token ht, hkt]
    exact hw
  unfold Parser.expect
  rw [bind_assoc]
  refine peek ?_
  rw [ht]
  dsimp only
  rw [if_pos hkt, bind_assoc]
  exact advance hk h

/-- A node is made, whatever its place and its type are. -/
theorem node {f : Expr → Parser δ} {start : Nat} {make : Info → Expr}
    (hmake : ∀ i j, (make i).withInfo j = make j)
    (h : ∀ info, Leads input K i (f (make info)) j r R) :
    Leads input K i (node start make >>= f) j r R := by
  intro s hs hK
  have hrun : (Parser.node start make >>= f) input s =
      f ((make { span := input.spanFrom start s.cursor }).typed s.scopes input.commands) input s :=
    rfl
  rw [hrun, Expr.typed, Expr.withType, hmake]
  exact h _ s hs hK

/-- A loop gets as many rounds as it can need. -/
theorem bounded {loop : Nat → Parser δ}
    (h : ∀ rounds, input.tokens.size < i + rounds → Leads input K i (loop rounds) j r R) :
    Leads input K i (bounded loop) j r R := by
  have hrounds : input.tokens.size < i + (input.left i + 1) := by
    unfold Input.left
    omega
  refine (h _ hrounds).look fun s hs _ => ?_
  exact congrArg (fun i => loop (input.left i + 1) input s) hs

theorem kindAhead {f : Kind → Parser δ} {n : Nat} (h : Leads input K i (f (input.kind (i + n))) j r R) :
    Leads input K i (kindAhead n >>= f) j r R :=
  look h fun s hs _ => congrArg (fun i => f (input.kind (i + n)) input s) hs

theorem spanFrom {f : Span → Parser δ} {start : Nat}
    (h : Leads input K i (f (input.spanFrom start i)) j r R) :
    Leads input K i (spanFrom start >>= f) j r R :=
  look h fun s hs _ => congrArg (fun i => f (input.spanFrom start i) input s) hs

/-- A statement is made, whatever its place is. -/
theorem stmtFrom {f : Option Stmt → Parser δ} {start : Nat} {make : Span → Stmt}
    (h : ∀ span, Leads input K i (f (some (make span))) j r R) :
    Leads input K i (stmtFrom start make >>= f) j r R := by
  unfold Parser.stmtFrom
  rw [bind_assoc]
  exact spanFrom (h _)

theorem skipWhile {f : Unit → Parser δ} {p : Kind → Bool} {n : Nat}
    (hskip : input.skipWhile p i = n) (h : Leads input K n (f ()) j r R) :
    Leads input K i (skipWhile p >>= f) j r R := by
  have hmove : Leads input K i (Parser.moveTo n >>= f) j r R := moveTo h
  refine hmove.look fun s hs _ => ?_
  rw [← hskip, ← hs]
  rfl

/-- Something was read since. -/
theorem passFrom {f : Unit → Parser δ} {start : Nat} (hne : i ≠ start)
    (h : Leads input K i (f ()) j r R) : Leads input K i (passFrom start >>= f) j r R := by
  unfold Parser.passFrom
  rw [bind_assoc]
  refine cursor ?_
  rw [if_neg hne]
  exact h

/-- The statement ends here. -/
theorem finishStatement {f : Unit → Parser δ} (hk : (input.kind i).isTerminator = true)
    (h : Leads input K i (f ()) j r R) : Leads input K i (finishStatement >>= f) j r R := by
  unfold Parser.finishStatement Parser.atStatementEnd
  rw [bind_assoc, bind_assoc]
  refine kind ?_
  rw [hk]
  exact look h fun _ _ _ => rfl

theorem atCloser {f : Bool → Parser δ} {closer : Closer}
    (h : Leads input K i (f (input.closesWith i closer)) j r R) :
    Leads input K i (atCloser closer >>= f) j r R :=
  look h fun s hs _ => congrArg (fun i => f (input.closesWith i closer) input s) hs

/-- The closer stands here and is passed. -/
theorem acceptCloser_word {f : Bool → Parser δ} {word : Keyword}
    (hk : input.kind i = .keyword word) (h : Leads input K (i + 1) (f true) j r R) :
    Leads input K i (acceptCloser (.word word) >>= f) j r R := by
  have hcloses : input.closesWith i (.word word) = true := decide_eq_true hk
  unfold acceptCloser
  rw [bind_assoc]
  refine atCloser ?_
  rw [hcloses, if_pos rfl, bind_assoc]
  exact advance (by rw [hk]; exact fun h => nomatch h) h

/-- The two words of the closer stand here and are passed. -/
theorem acceptCloser_endOf {f : Bool → Parser δ} {word : Keyword}
    (hk : input.kind i = .keyword .end_) (hk' : input.kind (i + 1) = .keyword word)
    (h : Leads input K (i + 2) (f true) j r R) :
    Leads input K i (acceptCloser (.endOf word) >>= f) j r R := by
  have hcloses : input.closesWith i (.endOf word) = true := by
    simp [Input.closesWith, hk, hk']
  unfold acceptCloser
  rw [bind_assoc]
  refine atCloser ?_
  rw [hcloses, if_pos rfl, bind_assoc]
  rw [bind_assoc]
  refine advance (by simp [hk]) ?_
  exact advance (by simp [hk']) h

/-- The closer does not stand here. -/
theorem acceptCloser_neg {f : Bool → Parser δ} {closer : Closer}
    (hk : input.closesWith i closer = false) (h : Leads input K i (f false) j r R) :
    Leads input K i (acceptCloser closer >>= f) j r R := by
  unfold acceptCloser
  rw [bind_assoc]
  refine atCloser ?_
  rw [hk, if_neg Bool.false_ne_true]
  exact h

end Steps

/-- What keeps the scopes that are known of keeps what is known of them. -/
theorem of_keeps (h : ∀ depth scopes, K depth scopes → Leads input (Keeps scopes) i p j q Q) :
    Leads input K i p j q Q := by
  intro s hs hK
  obtain ⟨a, scopes, ha, rfl, hrun⟩ := h s.depth s.scopes hK s hs rfl
  exact ⟨a, s.scopes, ha, hK, hrun⟩

end Leads

/-! ### Results -/

namespace Finds

variable {p : Parser α} {f : α → Parser δ} {r : γ → Parser δ} {R : γ → Prop}

theorem pure {a : α} (h : Q a) : Finds input K i (pure a) Q i :=
  Leads.here h

theorem imp {Q' : α → Prop} (h : Finds input K i p Q j) (hQ : ∀ a, Q a → Q' a) :
    Finds input K i p Q' j :=
  Leads.imp h hQ

/-- What is read is handed on. -/
theorem bind (h : Finds input K i p Q j) (h' : ∀ a, Q a → Leads input K j (f a) k r R) :
    Leads input K i (p >>= f) k r R :=
  Leads.bind h h'

theorem map {g : α → γ} (h : Finds input K i p (fun a => R (g a)) j) :
    Finds input K i (g <$> p) R j := by
  intro s hs hK
  obtain ⟨a, scopes, ha, hK', hrun⟩ := h s hs hK
  refine ⟨g a, scopes, ha, hK', ?_⟩
  have hmap : (g <$> p) input s = (g (p input s).1, (p input s).2) := rfl
  rw [hmap, hrun]
  rfl

/-- A node is made, whatever its place and its type are. -/
theorem node {start : Nat} {make : Info → Expr} {Q : Expr → Prop}
    (hmake : ∀ i j, (make i).withInfo j = make j) (h : ∀ info, Q (make info)) :
    Finds input K i (node start make) Q i := by
  rw [← bind_pure (Parser.node start make)]
  exact Leads.node hmake fun info => .here (h info)

/-- A statement is made, whatever its place is. -/
theorem stmtFrom {start : Nat} {make : Span → Stmt} {Q : Option Stmt → Prop}
    (h : ∀ span, Q (some (make span))) : Finds input K i (stmtFrom start make) Q i :=
  Leads.spanFrom (Finds.pure (h _))

/-- Inside a block there is one block more around a statement. -/
theorem inBlock {P : Scopes → Prop} (h : Finds input (fun _ => P) i p Q j) :
    Finds input (fun _ => P) i (inBlock p) Q j := by
  intro s hs hK
  obtain ⟨a, scopes, ha, hK', hrun⟩ := h { s with depth := s.depth + 1 } hs hK
  refine ⟨a, scopes, ha, hK', ?_⟩
  have hblock : Parser.inBlock p input s =
      ((p input { s with depth := s.depth + 1 }).1,
        { (p input { s with depth := s.depth + 1 }).2 with
          depth := (p input { s with depth := s.depth + 1 }).2.depth - 1 }) := rfl
  rw [hblock, hrun]
  rfl

end Finds

end FrameBasic.Parser

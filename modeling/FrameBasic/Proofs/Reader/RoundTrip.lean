import FrameBasic.Proofs.Reader.Canonical

/-!
# Programs in canonical spelling

The text of a program in canonical spelling is read without an error, and gives its tree up to places
and inferred types.  The types come first, and each of them is known from its declaration on.

## Main results

* `Parser.programLoop_finds_types` — types and the statements behind them are read back.
* `Parser.shows_ofTokens` — the tokens of a text show its items.
* `Parser.parse_source` — **a program is read back from its text**.
-/

namespace FrameBasic

namespace Parser

open Canonical (Name Block TypeBlock)

variable {commands : CommandTable} {types : List (Name commands)} {input : Input}
variable {K : Nat → Scopes → Prop} {i j : Nat}

/-! ### Types -/

section Types

variable {known : List (Name commands)}

/-- A field is read back, up to the line feed behind it. -/
theorem fieldDecl_finds {name : Name commands} {ms : List (Item commands)}
    (hshows : input.Shows i (name.item :: .newline :: ms)) :
    Finds input K i (bounded (collect fieldDecl))
      (fun r => r.1.map (FieldDecl.relabel .bare) = [⟨name.text, none, default⟩]) (i + 1) := by
  obtain ⟨t, ht, hkt, htext⟩ := hshows.token
  have hline := hshows.2.newline
  have hi := Input.lt_size_of_token ht
  have hdecl : Finds input K i fieldDecl
      (fun o => ∃ d, o = some d ∧ d.relabel .bare = ⟨name.text, none, default⟩) (i + 1) := by
    refine .cursor (.expect ht (hkt.trans name.kind_item) (by decide) ?_)
    refine (typeTag_finds_none (by rw [hline]; decide)).bind ?_
    rintro _ rfl
    refine .spanFrom (Finds.pure ⟨_, rfl, ?_⟩)
    rw [htext, name.text_item]
    rfl
  refine .bounded fun rounds hrounds => ?_
  cases rounds with
  | zero => omega
  | succ rounds =>
    refine hdecl.bind ?_
    rintro _ ⟨d, rfl, hd⟩
    refine .accept_neg (by rw [hline]; decide) ?_
    exact Finds.pure (by rw [List.map_cons, hd]; rfl)

/-- The line after that of a type begins with a word. -/
theorem fields_not_separator {fields : List (Name commands)} (h : input.Shows i
      (TypeBlock.fieldItems fields ++ [Canonical.word .end_, Canonical.word .type])) :
    (input.kind i).isSeparator = false := by
  cases fields with
  | nil | cons => rw [h.keyword]; rfl

/-- The fields of a type are read back, with the words that close it. -/
theorem fieldLoop_finds {opened : Span} (fields : List (Name commands)) :
    ∀ {i p rounds : Nat}, i ≤ p → input.skipWhile Kind.isSeparator i = p →
    input.Shows p (TypeBlock.fieldItems fields ++ [Canonical.word .end_, Canonical.word .type]) →
    input.tokens.size < i + rounds →
    Finds input K i (fieldLoop opened rounds)
      (fun ds => ds.map (FieldDecl.relabel .bare) =
        fields.map fun name => ⟨name.text, none, default⟩)
      (p + (TypeBlock.fieldItems fields).length + 2) := by
  induction fields with
  | nil =>
    intro i p rounds hip hskip hshows hrounds
    have hend := hshows.keyword
    have hp : p < input.tokens.size := Input.lt_size_of_kind (by rw [hend]; decide)
    cases rounds with
    | zero => omega
    | succ rounds =>
      refine .skipWhile hskip (.cursor (.acceptCloser_endOf hend hshows.2.keyword ?_))
      exact Finds.pure rfl
  | cons name fields ih =>
    intro i p rounds hip hskip hshows hrounds
    have hfield := hshows.keyword
    have hline := hshows.2.2.newline
    have hp : p < input.tokens.size := Input.lt_size_of_kind (by rw [hfield]; decide)
    have hafter : input.skipWhile Kind.isSeparator (p + 1 + 1) = p + 1 + 1 + 1 := by
      exact Input.skipWhile_succ (Input.lt_size_of_kind (by rw [hline]; decide))
        (by rw [hline]; rfl) (fields_not_separator hshows.2.2.2)
    have hlen : p + (TypeBlock.fieldItems (name :: fields)).length + 2 =
        p + 1 + 1 + 1 + (TypeBlock.fieldItems fields).length + 2 := by
      simp only [TypeBlock.fieldItems, List.length_cons]
      omega
    rw [hlen]
    cases rounds with
    | zero => omega
    | succ rounds =>
      refine .skipWhile hskip (.cursor ?_)
      refine .acceptCloser_neg (by simp [Input.closesWith, hfield]) ?_
      refine .accept_pos (by decide) hfield ?_
      refine (fieldDecl_finds hshows.2).bind fun r hr => ?_
      refine .finishStatement (by rw [hline]; rfl) ?_
      refine (ih (Nat.le_succ _) hafter hshows.2.2.2 (by omega)).bind fun ds hds => ?_
      exact Finds.pure (by rw [List.map_append, hr, hds]; rfl)

/-- A type is declared. -/
theorem defineType_leads {β γ : Type} {f : Unit → Parser β} {q : γ → Parser β} {Q : γ → Prop}
    {name : Name commands} {fields : List String}
    (h : Leads input (fun depth scopes => depth = 0 ∧ Knows (known ++ [name]) scopes) i (f ()) j q Q) :
    Leads input (fun depth scopes => depth = 0 ∧ Knows known scopes) i
      (defineGlobal (.userType name.text fields) >>= f) j q Q := by
  rintro s hs ⟨hdepth, hK⟩
  obtain ⟨a, scopes, ha, ⟨-, hknows⟩, hrun⟩ :=
    h { s with scopes := s.scopes.defineGlobal (.userType name.text fields) } hs
      ⟨hdepth, hK.defineGlobal name fields⟩
  refine ⟨a, scopes, ha, ⟨hdepth, hknows.closed, fun type htype => ?_⟩, hrun⟩
  exact hknows.isType type (List.mem_append_left _ htype)

/-- What is done once the fields of a type were read. -/
def declareType (start : Nat) (name : String) (fields : List FieldDecl) : Parser (Option Stmt) := do
  defineGlobal (.userType name (fields.map FieldDecl.name))
  stmtFrom start (.type · name fields)

/-- A type is read up to its declaration. -/
theorem typeStmt_leads {t : TypeBlock commands} (hshows : input.Shows i t.items)
    (hK : ∀ depth scopes, K depth scopes → depth = 0) :
    Leads input K i typeStmt (i + t.items.length) (declareType i t.name.text)
      (fun fields => fields.map (FieldDecl.relabel .bare) =
        t.fields.map fun name => ⟨name.text, none, default⟩) := by
  obtain ⟨u, hu, hku, htext⟩ := hshows.2.token
  have hline := hshows.2.2.newline
  have hskip : input.skipWhile Kind.isSeparator (i + 1 + 1) = i + 1 + 1 + 1 := by
    exact Input.skipWhile_succ (Input.lt_size_of_kind (by rw [hline]; decide))
      (by rw [hline]; rfl) (fields_not_separator hshows.2.2.2)
  have hlen : i + t.items.length = i + 1 + 1 + 1 + (TypeBlock.fieldItems t.fields).length + 2 := by
    simp only [TypeBlock.items, List.length_cons, List.length_append, List.length_nil]
    omega
  rw [hlen]
  refine .cursor (advance_word hshows.keyword ?_)
  refine .expect hu (hku.trans t.name.kind_item) (by decide) (.spanFrom ?_)
  refine .get fun s _ hs => ?_
  rw [if_neg (by rw [hK _ _ hs]; decide)]
  refine Leads.bind (.bounded fun rounds hrounds => fieldLoop_finds t.fields (Nat.le_succ _) hskip
    hshows.2.2.2 hrounds) fun fields hfields => ?_
  rw [htext, t.name.text_item]
  exact Leads.here (q := declareType i t.name.text) hfields

end Types

/-! ### Programs -/

/-- The statements of a program are read back. -/
theorem programLoop_finds : ∀ (b : Block commands types) {i p rounds : Nat}, i ≤ p →
    input.skipWhile Kind.isSeparator i = p → input.Shows p b.items →
    input.kind (p + b.items.length) = .eof → p + b.items.length < input.tokens.size →
    input.tokens.size < i + rounds →
    Finds input (fun _ => Knows types) i (programLoop statement rounds) (bareStmts · = b.tree)
      (p + b.items.length)
  | .nil, i, p, rounds, hip, hskip, _, hend, hsize, hrounds => by
    cases rounds with
    | zero => omega
    | succ rounds =>
      refine .skipWhile hskip (.check_pos hend ?_)
      exact Finds.pure rfl
  | .cons first rest, i, p, rounds, hip, hskip, hshows, hend, hsize, hrounds => by
    obtain ⟨hnode, hrest⟩ := Input.shows_append.mp hshows
    have hline := hrest.newline
    have hopens := Node.opens first hnode
    have hne : input.kind p ≠ .eof := fun h => by rw [h] at hopens; cases hopens
    have hlen : p + (Block.cons first rest).items.length =
        p + first.items.length + 1 + rest.items.length := by
      simp only [Block.items, List.length_append, List.length_cons]
      omega
    rw [hlen] at hend hsize ⊢
    have hpos := Node.length_pos first
    have hafter : input.skipWhile Kind.isSeparator (p + first.items.length) =
        p + first.items.length + 1 := by
      refine Input.skipWhile_succ (by omega) (by rw [hline]; rfl) ?_
      exact Block.not_separator rest hrest.2 (by rw [hend]; rfl)
    have hstatement : Finds input (fun _ => Knows types) p statement
        (fun o => ∃ s, o = some s ∧ s.bare = first.tree) (p + first.items.length) :=
      .bounded fun nesting hnesting => Node.reads input first hnode hline hnesting
    cases rounds with
    | zero => omega
    | succ rounds =>
      refine .skipWhile hskip (.check_neg hne ?_)
      refine (round_finds hstatement (by rw [hline]; rfl) (by omega)).bind ?_
      rintro _ ⟨s, rfl, hs⟩
      refine (programLoop_finds rest (Nat.le_succ _) hafter hrest.2 hend hsize (by omega)).bind ?_
      intro stmts hstmts
      refine Finds.pure ?_
      simp only [Option.toList, List.cons_append, List.nil_append, relabelStmts, Block.tree, hs,
        hstmts]

/-- A program does not begin with a separator. -/
theorem program_not_separator {body : Block commands types} {ts : List (TypeBlock commands)}
    (h : input.Shows i (TypeBlock.allItems ts ++ body.items))
    (hend : input.kind (i + (TypeBlock.allItems ts).length + body.items.length) = .eof) :
    (input.kind i).isSeparator = false := by
  cases ts with
  | nil =>
    have hend : input.kind (i + body.items.length) = .eof := hend
    exact Block.not_separator body h (by rw [hend]; rfl)
  | cons => rw [h.keyword]; rfl

/-- Types and the statements behind them are read back. -/
theorem programLoop_finds_types (body : Block commands types) (ts : List (TypeBlock commands)) :
    ∀ {known : List (Name commands)} {i p rounds : Nat}, known ++ ts.map TypeBlock.name = types →
    i ≤ p → input.skipWhile Kind.isSeparator i = p →
    input.Shows p (TypeBlock.allItems ts ++ body.items) →
    input.kind (p + (TypeBlock.allItems ts).length + body.items.length) = .eof →
    p + (TypeBlock.allItems ts).length + body.items.length < input.tokens.size →
    input.tokens.size < i + rounds →
    Finds input (fun depth scopes => depth = 0 ∧ Knows known scopes) i (programLoop statement rounds)
      (bareStmts · = ts.map TypeBlock.tree ++ body.tree)
      (p + (TypeBlock.allItems ts).length + body.items.length) := by
  induction ts with
  | nil =>
    intro known i p rounds hknown hip hskip hshows hend hsize hrounds
    obtain rfl : known = types := by rw [← hknown, List.map_nil, List.append_nil]
    rintro s hs ⟨hdepth, hK⟩
    obtain ⟨a, scopes, ha, hK', hrun⟩ :=
      programLoop_finds body hip hskip hshows hend hsize hrounds s hs hK
    exact ⟨a, scopes, ha, ⟨hdepth, hK'⟩, hrun⟩
  | cons t ts ih =>
    intro known i p rounds hknown hip hskip hshows hend hsize hrounds
    obtain ⟨hall, hbody⟩ := Input.shows_append.mp hshows
    obtain ⟨htype, hrest⟩ := Input.shows_append.mp hall
    have hword := htype.keyword
    have hline := hrest.newline
    have hlen : p + (TypeBlock.allItems (t :: ts)).length =
        p + t.items.length + 1 + (TypeBlock.allItems ts).length := by
      simp only [TypeBlock.allItems, List.length_append, List.length_cons]
      omega
    rw [hlen] at hbody hend hsize ⊢
    have hrest := Input.shows_append.mpr ⟨hrest.2, hbody⟩
    have hafter : input.skipWhile Kind.isSeparator (p + t.items.length) =
        p + t.items.length + 1 :=
      Input.skipWhile_succ (by omega) (by rw [hline]; rfl) (program_not_separator hrest hend)
    have hpos : 0 < t.items.length := Nat.succ_pos _
    have hknown : (known ++ [t.name]) ++ ts.map TypeBlock.name = types := by
      rw [← hknown, List.append_assoc]
      rfl
    have hstatement : Leads input (fun depth scopes => depth = 0 ∧ Knows known scopes) p statement
        (p + t.items.length) (declareType p t.name.text)
        (fun fields => fields.map (FieldDecl.relabel .bare) =
          t.fields.map fun name => ⟨name.text, none, default⟩) := by
      refine .bounded fun nesting hnesting => ?_
      cases nesting with
      | zero => omega
      | succ nesting => exact statementWith_word hword fun _ => typeStmt_leads htype fun _ _ h => h.1
    cases rounds with
    | zero => omega
    | succ rounds =>
      refine .skipWhile hskip (.check_neg (by rw [hword]; decide) ?_)
      unfold round
      rw [bind_assoc]
      refine .cursor ?_
      rw [bind_assoc]
      refine hstatement.bind fun fields hfields => ?_
      unfold declareType
      rw [bind_assoc]
      refine defineType_leads (.stmtFrom fun span => ?_)
      rw [bind_assoc]
      refine .finishStatement (by rw [hline]; rfl) ?_
      rw [bind_assoc]
      refine .passFrom (by omega) ?_
      rw [pure_bind]
      refine (ih hknown (Nat.le_succ _) hafter hrest hend hsize (by omega)).bind fun stmts hstmts => ?_
      refine Finds.pure ?_
      simp only [Option.toList, List.cons_append, List.nil_append, relabelStmts, Stmt.relabel,
        Relabel.span_bare, Relabel.name_bare, hfields, hstmts, List.map_cons]
      rfl

/-! ### Texts -/

/-- What the tokens are is what they show. -/
theorem Input.shows_of_map {ms : List (Item commands)} {rest : List (Kind × String)}
    (h : (input.tokens.toList.drop i).map (fun t => (t.kind, t.text)) =
      ms.map (fun m => (m.kind, m.text)) ++ rest) :
    input.Shows i ms ∧
      (input.tokens.toList.drop (i + ms.length)).map (fun t => (t.kind, t.text)) = rest := by
  induction ms generalizing i with
  | nil => exact ⟨trivial, h⟩
  | cons m ms ih =>
    obtain ⟨t, tail, hdrop, ht, htail⟩ := List.map_eq_cons_iff.mp h
    have hget : input.tokens[i]? = some t := by
      rw [← Array.getElem?_toList, ← List.head?_drop, hdrop]
      rfl
    have hrest : input.tokens.toList.drop (i + 1) = tail := by
      rw [← List.drop_drop, hdrop]
      rfl
    obtain ⟨hshows, hend⟩ := ih (i := i + 1) (by rw [hrest]; exact htail)
    refine ⟨⟨⟨t, hget, congrArg Prod.fst ht, congrArg Prod.snd ht⟩, hshows⟩, ?_⟩
    rw [List.length_cons, Nat.add_comm ms.length, ← Nat.add_assoc]
    exact hend

/-- The tokens of a text show its items, up to the end of the input. -/
theorem shows_ofTokens (ms : List (Item commands)) :
    let input := Input.ofTokens commands (tokens commands (String.ofList (spell ms)))
    input.Shows 0 ms ∧ input.kind ms.length = .eof ∧ input.tokens.size = ms.length + 1 := by
  intro input
  have hitems := items_tokens_spell ms
  have hkinds : ∀ t ∈ tokens commands (String.ofList (spell ms)), t.kind ≠ .comment := by
    intro t ht
    have hmem := List.mem_map_of_mem (f := fun t : Token => (t.kind, t.text)) ht
    rw [hitems, List.mem_append, List.mem_map, List.mem_singleton] at hmem
    rcases hmem with ⟨m, -, hm⟩ | heof
    · have hkind : m.kind = t.kind := congrArg Prod.fst hm
      exact hkind ▸ m.kind_ne_comment
    · have hkind : t.kind = .eof := congrArg Prod.fst heof
      exact hkind ▸ by decide
  have htokens : input.tokens.toList = tokens commands (String.ofList (spell ms)) :=
    List.filter_eq_self.mpr fun t ht => decide_eq_true (hkinds t ht)
  have hmap : (input.tokens.toList.drop 0).map (fun t => (t.kind, t.text)) =
      ms.map (fun m => (m.kind, m.text)) ++ [(.eof, "")] := by
    rw [List.drop_zero, htokens, hitems]
  obtain ⟨hshows, hend⟩ := Input.shows_of_map hmap
  have hsize := congrArg List.length hitems
  rw [List.length_map, List.length_append, List.length_map, ← htokens, Array.length_toList] at hsize
  refine ⟨hshows, ?_, hsize⟩
  rw [Nat.zero_add] at hend
  obtain ⟨t, tail, hdrop, ht, -⟩ := List.map_eq_cons_iff.mp hend
  have hget : input.tokens[ms.length]? = some t := by
    rw [← Array.getElem?_toList, ← List.head?_drop, hdrop]
    rfl
  rw [Input.kind_of_token hget]
  exact congrArg Prod.fst ht

theorem inner_foldl_defineGlobal (symbols : List Symbol) (scopes : Scopes) :
    (symbols.foldl Scopes.defineGlobal scopes).inner = scopes.inner := by
  induction symbols generalizing scopes with
  | nil => rfl
  | cons symbol rest ih => exact ih _

/-- A program in canonical spelling is read back from its text: nothing is wrong in the text, the
reader records no error, and the tree is that of the program up to places and inferred types. -/
theorem parse_source (p : Canonical.Program commands) :
    lexicalErrors commands p.source = [] ∧
      (Program.parse commands (tokens commands p.source)).errors = [] ∧
      bareStmts (Program.parse commands (tokens commands p.source)).program.stmts = p.tree := by
  obtain ⟨hshows, hend, hsize⟩ := shows_ofTokens p.items
  have hlen : p.items.length = 0 + (TypeBlock.allItems p.types).length + p.body.items.length := by
    rw [Canonical.Program.items, List.length_append, Nat.zero_add]
  rw [hlen] at hend hsize
  have hskip := Input.skipWhile_self (p := Kind.isSeparator) (program_not_separator hshows hend)
  have hlast : 0 + (TypeBlock.allItems p.types).length + p.body.items.length <
      (Input.ofTokens commands (tokens commands p.source)).tokens.size :=
    hsize ▸ Nat.lt_succ_self _
  have hfinds := Leads.bounded fun rounds hrounds => programLoop_finds_types p.body p.types
    (List.nil_append _) (Nat.le_refl 0) hskip hshows hend hlast hrounds
  have hinitial : Knows ([] : List (Name commands))
      (State.initial (Input.ofTokens commands (tokens commands p.source))).scopes :=
    ⟨inner_foldl_defineGlobal _ _, List.forall_mem_nil _⟩
  obtain ⟨stmts, scopes, hstmts, -, hrun⟩ := hfinds (.initial _) rfl ⟨rfl, hinitial⟩
  have hread : readAll (Input.ofTokens commands (tokens commands p.source)) = (stmts, _) := hrun
  refine ⟨lexicalErrors_spell p.items, ?_, ?_⟩
  · simp only [Program.parse, hread]
    rfl
  · simp only [Program.parse, hread]
    exact hstmts

end Parser

end FrameBasic

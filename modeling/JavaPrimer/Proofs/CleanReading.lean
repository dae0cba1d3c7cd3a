import JavaPrimer.Proofs.CleanRun

/-!
# What runs without complaints read

Construct by construct, a run that adds no diagnostic has consumed exactly the tokens that its
value is read from, and the outline of the value fits them. For a run to the end of input this says
that a tree without syntax errors is the reading of all tokens before the end of input, and that
its spans are those of the tokens.

* `Parse.reads_chain`, `Parse.reads_climb` — the tiers of binary operators;
* `Parse.reads_unary`, `Parse.reads_expression` — expressions, by induction on the nesting;
* `Parse.reads_statementWithin` — statements, by induction on the nesting of blocks;
* `takes_of_parseWith` — runs to the end of input.
-/

namespace JavaPrimer

namespace Parse

variable {c : Cursor}

/-! ### Binary operators -/

theorem op?_eof : ∀ tier ∈ tiers, tier.op? .eof = none := by decide

/-- Operands joined to `left` by the operators of the `k`-th tier. -/
theorem reads_chain {operand : Parse .short Expr} {k : Nat} (hk : k < tiers.length)
    (ho : ∀ d, d.Calm → operand.Reads d fun ts e => e.Takes ts ∧ k + 1 < e.rank) (n : Nat)
    (hc : c.Calm) {left : Expr} {us : List Token} (hl : left.Takes us) (hr : k < left.rank) :
    (chain tiers[k] operand n left).Reads c fun ts e => e.Takes (us ++ ts) ∧ k < e.rank := by
  induction n generalizing c left us with
  | zero => exact reads_pure hc ⟨by rwa [List.append_nil], hr⟩
  | succ n ih =>
    refine reads_look_bind ?_
    split
    · exact reads_pure hc ⟨by rwa [List.append_nil], hr⟩
    · next op hop =>
      have hop' : (tiers[k]).op? c.kind = some op := by simpa [tierOp?, hc.quiet] using hop
      have hne : c.kind ≠ .eof := by
        intro he
        rw [he, op?_eof _ (List.getElem_mem hk)] at hop'
        cases hop'
      refine reads_advance_bind hc hne fun hd => (ho _ hd).bind ?_
      rintro d' vs right hd' - ⟨hright, hrr⟩
      -- the two operands and the operator between them are the new left operand
      have hwrites := Level.writes_tier hk hop'
      have hnew : (Expr.binary (left.span.through right.span) (tiers[k]).level op c.current.span
          left right).Takes (us ++ c.current :: vs) := by
        refine ⟨⟨us, c.current, vs, rfl, hwrites, ?_, ?_, hl.1, hright.1⟩, ?_⟩
        · rw [Expr.needsParens_left, rank_tier k hk]
          exact hr
        · rw [Expr.needsParens_right, rank_tier k hk]
          exact hrr
        · have hparts := hl.2.append (hright.2.sign _ hwrites.mem_operators rfl)
          exact hparts.one _ (hl.span.join [c.current] hright.span)
      refine (ih hd' hnew ?_).imp fun ts e h => ?_
      · show k < (tiers[k]).level.rank
        rw [rank_tier k hk]
        exact Nat.lt_succ_self k
      · simpa [List.append_assoc] using h

/-- The tiers from the `k`-th on read expressions that bind with a greater rank. -/
theorem reads_climb {operand : Parse .short Expr}
    (ho : ∀ d, d.Calm → operand.Reads d fun ts e => e.Takes ts ∧ e.isBinary = false) :
    ∀ j k, k + j = tiers.length → ∀ c : Cursor, c.Calm →
      (climb operand (tiers.drop k)).Reads c fun ts e => e.Takes ts ∧ k < e.rank := by
  intro j
  induction j with
  | zero =>
    intro k hk c hc
    rw [show tiers.drop k = [] from List.drop_eq_nil_of_le (Nat.le_of_eq hk.symm)]
    refine (ho c hc).imp fun ts e h => ⟨h.1, ?_⟩
    rw [Expr.rank_of_not_binary h.2, show k = 6 from hk]
    decide
  | succ j ih =>
    intro k hk c hc
    have hlt : k < tiers.length := by omega
    have hnext := ih (k + 1) (by omega)
    rw [List.drop_eq_getElem_cons hlt]
    refine (hnext c hc).bind ?_
    rintro d us left hd - ⟨hl, hr⟩
    exact reads_look_bind (reads_chain hlt hnext _ hd hl (by omega))

/-- All tiers together read expressions of any rank. -/
theorem reads_climb_tiers {operand : Parse .short Expr}
    (ho : ∀ d, d.Calm → operand.Reads d fun ts e => e.Takes ts ∧ e.isBinary = false)
    (c : Cursor) (hc : c.Calm) : (climb operand tiers).Reads c fun ts e => e.Takes ts := by
  have h := reads_climb ho 6 0 rfl c hc
  rw [List.drop_zero] at h
  exact h.imp fun _ _ h => h.1

/-! ### Operands -/

section Operands

variable {expr : Parse .short Expr} (he : ∀ d, d.Calm → expr.Reads d fun ts e => e.Takes ts)

include he

theorem reads_argument (hc : c.Calm) :
    (argument expr).Reads c fun ts o => ReadEach
      (fun e us => e.ReadAfterComma us ∧ (Outline.sign "," ++ e.outline).Fits us) o.toList ts := by
  refine reads_look_bind ?_
  split
  · next hm =>
    obtain ⟨-, hk⟩ : c.panicking = false ∧ c.kind = .comma := by simpa using hm
    refine reads_advance_bind hc (by simp [hk]) fun hd => (he _ hd).bind ?_
    intro d' us e hd' _ hread
    refine reads_pure hd' ?_
    rw [List.append_nil]
    exact ReadEach.singleton ⟨⟨c.current, us, rfl, hk, hread.1⟩, hread.2.sign "," (by decide) hk⟩
  · exact reads_pure hc rfl

theorem reads_arguments (hc : c.Calm) :
    (arguments expr).Reads c fun ts es => ArgsTake es ts := by
  refine reads_look_bind ?_
  split
  · refine (he c hc).bind fun d us e hd _ hread => ?_
    refine (reads_untilNone hd fun d' hd' => reads_argument he hd').bind ?_
    intro d' vs es hd' _ hmore
    obtain ⟨hreads, hfits⟩ := Outline.fits_readEach hmore
    rw [← moreArgsReadFrom_eq] at hreads
    rw [← moreArgsOutline_eq] at hfits
    refine reads_pure hd' ?_
    rw [List.append_nil]
    exact ⟨⟨us, vs, rfl, hread.1, hreads⟩, hread.2.append hfits⟩
  · exact reads_pure hc ⟨rfl, Outline.fits_done⟩

omit he in
theorem reads_fieldSelector (hc : c.Calm) (hk : c.kind = .dot) :
    fieldSelector.Reads c fun ts o => ReadEach Selector.Takes o.toList ts := by
  refine reads_advance_bind hc (by simp [hk]) fun hd => ?_
  refine reads_expectIdent_bind hd fun d' t hd' _ ht => reads_pure hd' ?_
  have hspan := (Span.fits_single c.current).join [] (Span.fits_single t)
  refine ReadEach.singleton ⟨⟨c.current, t, rfl, hk, ht⟩, ?_⟩
  exact ((Outline.fits_ident ht).sign "." (by decide) hk).one _ hspan

theorem reads_callSelector (hc : c.Calm) (hk : c.kind = .lparen) :
    (callSelector expr).Reads c fun ts o => ReadEach Selector.Takes o.toList ts := by
  obtain ⟨ws, hws⟩ := Cursor.rest_eq_of_kind hc.stop (show c.kind ≠ .eof by simp [hk])
  refine reads_advance_bind hc (by simp [hk]) fun hd => ?_
  refine (reads_arguments he hd).bind fun d us args hd hus hargs => ?_
  refine reads_panicking_bind hd (reads_expect_bind hd (by decide) fun d t hd ht hr => ?_)
  have hall := ((Cursor.consumed_advance hws).trans hus).trans ht
  refine reads_look_bind (reads_pure hd (ReadEach.singleton ⟨?_, ?_⟩))
  · exact ⟨c.current, us, t, rfl, hk, hr, hargs.1⟩
  · have hparts := hargs.2.between "(" ")" (by decide) hk (by decide) hr
    exact hparts.one _ (hall.spanSince (List.cons_ne_nil _ _))

theorem reads_selector (hc : c.Calm) :
    (selector expr).Reads c fun ts o => ReadEach Selector.Takes o.toList ts := by
  refine reads_panicking_bind hc (reads_look_bind ?_)
  split
  · next hk => exact reads_fieldSelector hc hk
  · next hk => exact reads_callSelector he hc hk
  · exact reads_pure hc rfl

theorem reads_nameExpr (hc : c.Calm) (hk : c.kind = .ident) :
    (nameExpr expr).Reads c fun ts e => e.Takes ts ∧ e.isPrimary = true := by
  refine reads_spanned (reads_advance_bind hc (by simp [hk]) fun hd => ?_)
  refine (reads_untilNone hd fun d' hd' => reads_selector he hd').bind ?_
  intro d' us xs hd' _ hxs
  obtain ⟨hreads, hfits⟩ := Outline.fits_readEach hxs
  rw [← selectorsReadFrom_eq] at hreads
  rw [← selectorsOutline_eq] at hfits
  have hhead : Ident.ReadFrom ⟨c.current.value, c.current.span⟩ c.current := ⟨hk, rfl⟩
  refine reads_pure hd' fun s hs => ?_
  rw [List.append_nil] at hs ⊢
  refine ⟨⟨⟨c.current, us, rfl, hhead, hreads⟩, ?_⟩, rfl⟩
  exact (hfits.ident hhead).one _ (hs (List.cons_ne_nil _ _))

theorem reads_newExpr (hc : c.Calm) (hk : c.kind = .kwNew) :
    (newExpr expr).Reads c fun ts e => e.Takes ts ∧ e.isPrimary = true := by
  refine reads_spanned (reads_advance_bind hc (by simp [hk]) fun hd => ?_)
  refine reads_expectIdent_bind hd fun d t hd _ ht => ?_
  refine reads_expect_bind hd (by decide) fun d l hd _ hl => ?_
  refine (reads_arguments he hd).bind fun d us args hd _ hargs => ?_
  refine reads_panicking_bind hd (reads_expect_bind hd (by decide) fun d r hd _ hr => ?_)
  refine reads_pure hd fun s hs => ⟨⟨?_, ?_⟩, rfl⟩
  · exact ⟨c.current, t, l, us, r, rfl, hk, ht, hl, hr, hargs.1⟩
  · have hparts := hargs.2.between "(" ")" (by decide) hl (by decide) hr
    exact ((hparts.ident ht).sign "new" (by decide) hk).one _ (hs (List.cons_ne_nil _ _))

theorem reads_parenExpr (hc : c.Calm) (hk : c.kind = .lparen) :
    (parenExpr expr).Reads c fun ts e => e.Takes ts ∧ e.isPrimary = true := by
  refine reads_spanned (reads_advance_bind hc (by simp [hk]) fun hd => ?_)
  refine (he _ hd).bind fun d us e hd _ hread => ?_
  refine reads_panicking_bind hd (reads_expect_bind hd (by decide) fun d r hd _ hr => ?_)
  refine reads_pure hd fun s hs => ⟨⟨⟨c.current, us, r, rfl, hk, hr, hread.1⟩, ?_⟩, rfl⟩
  have hparts := hread.2.between "(" ")" (by decide) hk (by decide) hr
  exact hparts.one _ (hs (List.cons_ne_nil _ _))

omit he in
theorem reads_expressionExpected (hc : c.Calm) {Q : List Token → Expr → Prop} :
    expressionExpected.Reads c Q :=
  reads_look_bind (reads_fail_bind hc _)

theorem reads_primary (hc : c.Calm) :
    (primary expr).Reads c fun ts e => e.Takes ts ∧ e.isPrimary = true := by
  refine reads_look_bind ?_
  split
  · next sort hsort =>
    have hne : c.kind ≠ .eof := by
      intro hk
      rw [show c.current.kind = .eof from hk] at hsort
      cases hsort
    refine reads_advance_bind hc hne fun hd => reads_pure hd ⟨⟨?_, ?_⟩, rfl⟩
    · exact ⟨c.current, rfl, hsort, rfl⟩
    · exact (Outline.fits_token fun hall => LiteralSort.form_eq hall hsort).one _
        (Span.fits_single c.current)
  · split
    · next hk => exact reads_nameExpr he hc hk
    · next hk => exact reads_parenExpr he hc hk
    · next hk => exact reads_newExpr he hc hk
    · exact reads_expressionExpected hc

omit he in
/-- The step operator that comes next is one of the two. -/
theorem ofKind?_of_stepOp? {op : UnaryOp} (h : stepOp? c = some op) :
    UnaryOp.ofKind? c.kind = some op ∧ op.isStep = true := by
  unfold stepOp? at h
  split at h
  · cases h
  · split at h
    · next hk =>
      cases h
      exact ⟨by rw [hk]; rfl, rfl⟩
    · next hk =>
      cases h
      exact ⟨by rw [hk]; rfl, rfl⟩
    · cases h

theorem reads_stepped (hc : c.Calm) :
    (stepped expr).Reads c fun ts e => e.Takes ts ∧ e.isBinary = false := by
  refine (reads_primary he hc).bind ?_
  rintro d us e hd - ⟨hread, hprim⟩
  refine reads_look_bind ?_
  split
  · next op hop =>
    obtain ⟨hkind, hstep⟩ := ofKind?_of_stepOp? hop
    have hne : d.kind ≠ .eof := by
      intro hk
      rw [hk] at hkind
      cases hkind
    refine reads_advance_bind hd hne fun hd' => reads_pure hd' ⟨⟨?_, ?_⟩, rfl⟩
    · exact ⟨us, d.current, rfl, hkind, hstep, hprim, hread.1⟩
    · have hparts := hread.2.append (Outline.fits_sign _ (UnaryOp.mem_operators hkind) rfl)
      exact hparts.one _ (hread.span.join [] (Span.fits_single d.current))
  · refine reads_pure hd ⟨?_, Expr.isBinary_of_isPrimary hprim⟩
    rwa [List.append_nil]

end Operands

theorem isPrimitive_ne_eof {k : Kind} (h : k.isPrimitive = true) : k ≠ .eof := by
  rintro rfl
  cases h

section Unary

variable {operand : Parse .short Expr}
  (ho : ∀ d, d.Calm → operand.Reads d fun ts e => e.Takes ts ∧ e.isBinary = false)

include ho

theorem reads_castExpr (hc : c.Calm) (hs : c.startsCast = true) :
    (castExpr operand).Reads c fun ts e => e.Takes ts ∧ e.isBinary = false := by
  obtain ⟨hk, hprim⟩ : c.kind = .lparen ∧ (c.ahead 1).kind.isPrimitive = true := by
    simpa [Cursor.startsCast] using hs
  have hword : c.advance.kind.isPrimitive = true := by
    rw [← Cursor.ahead_advance] at hprim
    exact hprim
  refine reads_advance_bind hc (by simp [hk]) fun hd => ?_
  refine reads_advance_bind hd (isPrimitive_ne_eof hword) fun hd => ?_
  refine reads_expect_bind hd (by decide) fun d r hd _ hr => (ho d hd).bind ?_
  rintro d' us e hd' - ⟨hread, hb⟩
  refine reads_pure hd' ?_
  rw [List.append_nil]
  refine ⟨⟨?_, ?_⟩, rfl⟩
  · exact ⟨c.current, c.advance.current, r, us, rfl, hk, hword, hr, rfl, rfl, hb, hread.1⟩
  · have htype := TypeSpec.fits_word (Kind.isTypeWord_of_isPrimitive hword)
      (Span.fits_single c.advance.current)
    have hparts := (htype.append (hread.2.sign ")" (by decide) hr)).sign "(" (by decide) hk
    exact hparts.one _ ((Span.fits_single c.current).join [c.advance.current, r] hread.span)

theorem reads_unaryWith (hc : c.Calm) :
    (unaryWith operand).Reads c fun ts e => e.Takes ts ∧ e.isBinary = false := by
  refine reads_look_bind ?_
  split
  · next op hop =>
    have hne : c.kind ≠ .eof := by
      intro hk
      rw [hk] at hop
      cases hop
    refine reads_advance_bind hc hne fun hd => (ho _ hd).bind ?_
    rintro d us e hd - ⟨hread, hb⟩
    refine reads_pure hd ?_
    rw [List.append_nil]
    refine ⟨⟨⟨c.current, us, rfl, hop, hb, hread.1⟩, ?_⟩, rfl⟩
    have hparts := hread.2.sign _ (UnaryOp.mem_operators hop) rfl
    exact hparts.one _ ((Span.fits_single c.current).join [] hread.span)
  · refine reads_look_bind ?_
    split
    · next hs => exact reads_castExpr ho hc hs
    · refine reads_stepped (fun d hd => ?_) hc
      exact reads_climb_tiers ho d hd

end Unary

theorem reads_unary (n : Nat) : ∀ c : Cursor, c.Calm →
    (unary n).Reads c fun ts e => e.Takes ts ∧ e.isBinary = false := by
  induction n with
  | zero => exact fun c hc => reads_expressionExpected hc
  | succ n ih => exact fun c hc => reads_unaryWith ih hc

/-- An expression read without complaints takes what was consumed. -/
theorem reads_expression (hc : c.Calm) : expression.Reads c fun ts e => e.Takes ts := by
  intro hd
  exact reads_climb_tiers (reads_unary (c.rest.length + 1)) c hc hd

/-! ### Statements -/

theorem isTypeWord_ne_eof {k : Kind} (h : k.isTypeWord = true) : k ≠ .eof := by
  rintro rfl
  cases h

theorem reads_typeSpec_bind {β : Type} (hc : c.Calm) {f : Option TypeSpec → Parse .short β}
    {Q : List Token → β → Prop}
    (h : ∀ d ts t, d.Calm → c.Consumed ts d → t.Takes ts →
      (f (some t)).Reads d fun us b => Q (ts ++ us) b) : (typeSpec >>= f).Reads c Q := by
  have htype : typeSpec.Reads c fun ts o => ∃ t, o = some t ∧ t.Takes ts := by
    refine reads_look_bind ?_
    split
    · next hw =>
      refine reads_spanned (reads_advance_bind hc (isTypeWord_ne_eof hw) fun hd => ?_)
      refine reads_look_bind ?_
      split
      · next hl =>
        have hk : c.advance.kind = .lbracket := by simpa using hl
        refine reads_advance_bind hd (by simp [hk]) fun hd => ?_
        refine reads_expect_bind hd (by decide) fun d r hd _ hr => reads_pure hd fun s hs => ?_
        refine ⟨_, rfl, ⟨c.current, [c.advance.current, r], rfl, hw, rfl, ?_⟩, ?_⟩
        · simp [hr, show c.advance.current.kind = .lbracket from hk]
        · exact TypeSpec.fits_array hw hk hr (hs (List.cons_ne_nil _ _))
      · refine reads_pure hd fun s hs => ⟨_, rfl, ⟨c.current, [], rfl, hw, rfl, rfl⟩, ?_⟩
        exact TypeSpec.fits_word hw (hs (List.cons_ne_nil _ _))
    · exact reads_fail_bind hc _
  refine htype.bind ?_
  rintro d ts o hd hr ⟨t, rfl, ht⟩
  exact h d ts t hd hr ht

theorem reads_assigned (hc : c.Calm) :
    assigned.Reads c fun ts e => ∃ us q, ts = us ++ [q] ∧ e.Takes us ∧ q.kind = .semi := by
  refine (reads_expression hc).bind fun d us e hd _ he => ?_
  refine reads_panicking_bind hd (reads_expect_bind hd (by decide) fun d q hd _ hq => ?_)
  exact reads_pure hd ⟨us, q, rfl, he, hq⟩

theorem reads_initialized (hc : c.Calm) :
    initialized.Reads c fun ts e => ∃ us q, ts = us ++ [q]
      ∧ (e.ReadAsInit us ∧ (initOutline e).Fits us) ∧ q.kind = .semi := by
  refine reads_look_bind ?_
  split
  · next h =>
    have hk : c.kind = .equals := by simpa using h
    refine reads_advance_bind hc (by simp [hk]) fun hd => (reads_assigned hd).imp ?_
    rintro ts e ⟨us, q, rfl, he, hq⟩
    refine ⟨c.current :: us, q, rfl, ⟨.inr ⟨c.current, us, rfl, hk, he.1⟩, ?_⟩, hq⟩
    rw [initOutline_of_readFrom he.1]
    exact he.2.sign "=" (by decide) hk
  · refine reads_expect_bind hc (by decide) fun d q hd _ hq => reads_pure hd ?_
    exact ⟨[], q, rfl, ⟨.inl ⟨rfl, rfl⟩, Outline.fits_done⟩, hq⟩

/-- A declaration after its modifiers; `build` makes a node of it. -/
theorem reads_declared {α : Type} (build : Option TypeSpec → Ident → Expr → Span → α)
    (hc : c.Calm) {Q : List Token → (Span → α) → Prop}
    (hQ : ∀ type name init ts, ts ≠ [] → ReadAsDeclared type name init ts →
      (declaredOutline type name init).Fits ts → Q ts (build type name init)) :
    Reads (do
      match ← typeSpec with
      | none => return build none .absent .missing
      | some type =>
        let (name, there) ← expectIdent
        if there then
          let init ← initialized
          return build (some type) name init
        else return build (some type) name .missing) c Q := by
  refine reads_typeSpec_bind hc fun d ws t hd _ ht => ?_
  refine reads_expectIdent_bind hd fun d x hd _ hx => ?_
  refine (reads_initialized hd).bind ?_
  rintro d vs init hd - ⟨us, q, rfl, hinit, hq⟩
  refine reads_pure hd ?_
  rw [List.append_nil]
  refine hQ _ _ _ _ (by simp) ⟨ws, x, us, q, rfl, ⟨t, rfl, ht.1⟩, hx, hinit.1, hq⟩ ?_
  exact ht.2.append ((hinit.2.append (Outline.fits_sign ";" (by decide) hq)).ident hx)

theorem reads_varDecl (hc : c.Calm) : varDecl.Reads c fun ts x => x.Takes ts := by
  have hfinal : finalMark.Reads c fun ts isFinal =>
      ts.map Token.kind = (if isFinal then [.kwFinal] else [])
        ∧ (if isFinal then Outline.sign "final" else .done).Fits ts := by
    refine reads_look_bind ?_
    split
    · next h =>
      have hk : c.kind = .kwFinal := by simpa using h
      refine reads_advance_bind hc (by simp [hk]) fun hd => reads_pure hd ⟨?_, ?_⟩
      · simp [show c.current.kind = .kwFinal from hk]
      · exact Outline.fits_sign "final" (by decide) hk
    · exact reads_pure hc ⟨rfl, Outline.fits_done⟩
  refine reads_spanned (hfinal.bind fun d fs isFinal hd _ hf => ?_)
  refine reads_declared (fun type name init s => Stmt.varDecl s isFinal type name init) hd ?_
  intro type name init ts hne hread hfits s hs
  refine ⟨⟨fs, ts, rfl, hf.1, hread⟩, ?_⟩
  exact (hf.2.append hfits).one _ (hs (List.append_ne_nil_of_right_ne_nil fs hne))

theorem reads_printArgument (hc : c.Calm) :
    printArgument.Reads c fun ts e =>
      ((e = .missing ∧ ts = []) ∨ e.ReadFrom ts) ∧ e.outline.Fits ts := by
  refine reads_look_bind ?_
  split
  · exact (reads_expression hc).imp fun ts e h => ⟨.inr h.1, h.2⟩
  · exact reads_pure hc ⟨.inl ⟨rfl, rfl⟩, Outline.fits_done⟩

theorem isWord_ne_eof {word : Text} {t : Token} (h : t.isWord word = true) : t.kind ≠ .eof := by
  intro hk
  simp [Token.isWord, hk] at h

theorem reads_expectWord_bind {β : Type} (hc : c.Calm) {words : List Text}
    {f : Ident × Bool → Parse .short β} {Q : List Token → β → Prop}
    (h : ∀ d t x, d.Calm → c.Consumed [t] d → x.ReadFrom t → x.name ∈ words →
      (f (x, true)).Reads d fun us b => Q (t :: us) b) : (expectWord words >>= f).Reads c Q := by
  have hx : (expectWord words).Reads c fun ts x =>
      x.2 = true ∧ ∃ t, ts = [t] ∧ x.1.ReadFrom t ∧ x.1.name ∈ words := by
    refine reads_look_bind ?_
    split
    · next hw =>
      refine reads_advance_bind hc (fun he => ?_) fun hd => reads_pure hd ?_
      · rw [show c.current.kind = .eof from he] at hw
        cases hw.1
      · exact ⟨rfl, c.current, rfl, ⟨hw.1, rfl⟩, by simpa using hw.2⟩
    · exact reads_fail_bind hc _
  refine hx.bind ?_
  rintro d ts ⟨x, b⟩ hd hr ⟨rfl, t, rfl, ht, hmem⟩
  exact h d t x hd hr ht hmem

theorem reads_printStmt (hc : c.Calm) (hs : c.startsPrint = true) :
    printStmt.Reads c fun ts x => x.Takes ts := by
  -- the four tokens that the lookahead has seen are the four that are consumed
  simp only [Cursor.startsPrint, Bool.and_eq_true, beq_iff_eq] at hs
  obtain ⟨⟨⟨h₀, h₁⟩, h₂⟩, h₃⟩ := hs
  have e₁ : c.advance.current = c.ahead 1 := Cursor.ahead_advance c 0
  have e₂ : c.advance.advance.current = c.ahead 2 := by
    show c.advance.advance.ahead 0 = c.ahead 2
    rw [Cursor.ahead_advance, Cursor.ahead_advance]
  have e₃ : c.advance.advance.advance.current = c.ahead 3 := by
    show c.advance.advance.advance.ahead 0 = c.ahead 3
    rw [Cursor.ahead_advance, Cursor.ahead_advance, Cursor.ahead_advance]
  rw [← e₁] at h₁
  rw [← e₂] at h₂
  rw [← e₃] at h₃
  refine reads_spanned (reads_advance_bind hc (isWord_ne_eof h₀) fun hd => ?_)
  refine reads_advance_bind hd (by simp [Cursor.kind, h₁]) fun hd => ?_
  refine reads_advance_bind hd (isWord_ne_eof h₂) fun hd => ?_
  refine reads_advance_bind hd (by simp [Cursor.kind, h₃]) fun hd => ?_
  refine reads_expectWord_bind hd fun d m method hd _ hm hmem => ?_
  refine reads_expect_bind hd (by decide) fun d l hd _ hl => ?_
  refine (reads_printArgument hd).bind fun d us arg hd _ harg => ?_
  refine reads_panicking_bind hd (reads_expect_bind hd (by decide) fun d r hd _ hr => ?_)
  refine reads_expect_bind hd (by decide) fun d q hd _ hq => reads_pure hd fun s hs => ?_
  have hspells : spellsPrint [c.current, c.advance.current, c.advance.advance.current,
      c.advance.advance.advance.current] = true := by
    simp [spellsPrint, h₀, h₁, h₂, h₃]
  refine ⟨⟨_, _, _, _, m, l, us, r, q, rfl, hspells, hm, hmem, hl, harg.1, hr, hq⟩, ?_⟩
  have hcloser : (Outline.sign ")" ++ Outline.sign ";").Fits [r, q] :=
    (Outline.fits_sign ";" (by decide) hq).sign ")" (by decide) hr
  have hparts := ((harg.2.append hcloser).sign "(" (by decide) hl).ident hm
  exact ((fits_printOutline hspells).append hparts).one _ (hs (List.cons_ne_nil _ _))

theorem reads_exprStmt (hc : c.Calm) (hs : c.startsPrint = false) :
    exprStmt.Reads c fun ts x => x.Takes ts := by
  -- a statement that spells the start of a print statement would have been taken for one
  rw [Cursor.startsPrint_eq hc.stop] at hs
  have hnot : ∀ {ts}, ts <+: c.rest → spellsPrint ts = false := by
    intro ts hr
    cases hts : spellsPrint ts with
    | false => rfl
    | true =>
      rw [spellsPrint_of_front hr hts] at hs
      cases hs
  refine Reads.of_front (reads_spanned ((reads_expression hc).bind ?_))
  intro d us target hd _ htarget
  refine reads_panicking_bind hd (reads_look_bind ?_)
  split
  · next op hop =>
    have hne : d.kind ≠ .eof := by
      intro hk
      rw [hk] at hop
      cases hop
    refine reads_advance_bind hd hne fun hd' => ?_
    split
    · next hassign =>
      refine (reads_assigned hd').bind ?_
      rintro d' vs value hd' - ⟨ws, q, rfl, hvalue, hq⟩
      refine reads_pure hd' fun s hs hfront => ?_
      rw [List.append_nil] at hs hfront ⊢
      refine ⟨⟨us, d.current :: ws, q, rfl, hnot hfront, htarget.1, .inr ?_, hq⟩, ?_⟩
      · exact ⟨d.current, ws, rfl, hop, hassign, hvalue.1⟩
      · have hassigned : (assignedOutline op value).Fits (d.current :: ws) := by
          rw [assignedOutline, if_neg (AssignOp.ne_none_of_ofKind? hop)]
          exact hvalue.2.sign _ (AssignOp.mem_operators hop) rfl
        have hparts := htarget.2.append (hassigned.append (Outline.fits_sign ";" (by decide) hq))
        exact hparts.one _ (hs (by simp))
    · exact reads_report_bind hd' _
  · refine reads_expect_bind hd (by decide) fun d' q hd' _ hq => ?_
    refine reads_pure hd' fun s hs hfront => ?_
    refine ⟨⟨us, [], q, rfl, hnot hfront, htarget.1, .inl ⟨rfl, rfl, rfl⟩, hq⟩, ?_⟩
    have hparts := htarget.2.append (Outline.fits_sign ";" (by decide) hq)
    exact hparts.one _ (hs (by simp))

/-- Statements of a block, with `inner` for each of them. -/
theorem reads_block {inner : Parse .short (Option Stmt)} (hc : c.Calm) (hk : c.kind = .lbrace)
    (hi : ∀ d, d.Calm → d.rest <:+ c.advance.rest →
      inner.Reads d fun ts o => ∃ x, o = some x ∧ x.Takes ts) :
    (block inner).Reads c fun ts b => b.Takes ts := by
  refine reads_spanned (reads_advance_bind hc (by simp [hk]) fun hd => ?_)
  refine (reads_whileMore hd (fun x h => x.not_readFrom_nil h.1) fun d hd hs _ => hi d hd hs).bind ?_
  intro d us stmts hd _ hstmts
  obtain ⟨hreads, hfits⟩ := Outline.fits_readEach hstmts
  rw [← stmtsReadFrom_eq] at hreads
  rw [← stmtsOutline_eq] at hfits
  refine reads_expect_bind hd (by decide) fun d r hd _ hr => reads_pure hd fun s hs => ?_
  refine ⟨⟨c.current, us, r, rfl, hk, hr, hreads⟩, ?_⟩
  have hparts := hfits.between "\x7b" "\x7d" (by decide) hk (by decide) hr
  exact hparts.one _ (hs (List.cons_ne_nil _ _))

theorem reads_statementWith {inner : Parse .short (Option Stmt)} (hc : c.Calm)
    (hi : ∀ d, d.Calm → d.rest <:+ c.advance.rest → c.rest ≠ [] →
      inner.Reads d fun ts o => ∃ x, o = some x ∧ x.Takes ts) :
    (statementWith inner).Reads c fun ts o => ∃ x, o = some x ∧ x.Takes ts := by
  refine reads_look_bind ?_
  show Reads (if _ then _ else _) c _
  split
  · exact reads_fail_bind hc _
  split
  · next hs => exact ((reads_printStmt hc hs).imp fun ts x h => ⟨x, rfl, h⟩).map
  · next hs =>
    split
    · exact ((reads_varDecl hc).imp fun ts x h => ⟨x, rfl, h⟩).map
    split
    · refine ((reads_exprStmt hc ?_).imp fun ts x h => ⟨x, rfl, h⟩).map
      exact Bool.eq_false_iff.2 hs
    split
    · next hk =>
      have hk : c.kind = .lbrace := by simpa using hk
      obtain ⟨ts, hr⟩ := Cursor.rest_eq_of_kind hc.stop (by simp [hk])
      have hne : c.rest ≠ [] := by
        rw [hr]
        exact List.cons_ne_nil _ _
      refine (reads_block hc hk fun d hd hs => hi d hd hs hne).bind fun d us b hd _ hb => ?_
      refine reads_pure hd ⟨_, rfl, ?_⟩
      rw [List.append_nil]
      exact hb
    · exact reads_fail_bind hc _

/-- Every block inside consumes a token, so the bound on the nesting is never met. -/
theorem reads_statementWithin (n : Nat) : ∀ c : Cursor, c.Calm → c.rest.length < n →
    (statementWithin n).Reads c fun ts o => ∃ x, o = some x ∧ x.Takes ts := by
  induction n with
  | zero => exact fun c _ hn => absurd hn (Nat.not_lt_zero _)
  | succ n ih =>
    intro c hc hn
    refine reads_statementWith hc fun d hd hs hne => ih d hd ?_
    have hle := hs.length_le
    have hpos := List.length_pos_iff.2 hne
    rw [Cursor.rest_advance, List.length_tail] at hle
    omega

theorem reads_statement (hc : c.Calm) :
    statement.Reads c fun ts o => ∃ x, o = some x ∧ x.Takes ts := by
  intro hd
  exact reads_statementWithin (c.rest.length + 1) c hc (Nat.lt_succ_self _) hd

/-! ### Classes -/

theorem reads_methodBody (hc : c.Calm) :
    methodBody.Reads c fun ts o => ∃ b, o = some b ∧ b.Takes ts := by
  refine reads_look_bind ?_
  split
  · next hk =>
    refine ((reads_block hc (by simpa using hk) fun d hd _ => reads_statement hd).imp ?_).map
    exact fun ts b h => ⟨b, rfl, h⟩
  · next hk =>
    -- the brace that is wanted here is the one that did not come
    have hk : c.kind ≠ .lbrace := by simpa using hk
    refine reads_expect_bind hc (by decide) fun d t hd hr ht => absurd ht ?_
    rwa [← Cursor.current_cons hr.rest]

theorem reads_mainMethod (hc : c.Calm) (hs : c.startsMain = true) :
    mainMethod.Reads c fun ts x => x.Takes ts := by
  simp only [Cursor.startsMain, Bool.and_eq_true, beq_iff_eq] at hs
  obtain ⟨⟨h₀, h₁⟩, h₂⟩ := hs
  rw [← Cursor.ahead_advance c 0] at h₁
  rw [← Cursor.ahead_advance c 1, ← Cursor.ahead_advance c.advance 0] at h₂
  have h₁ : c.advance.kind = .kwStatic := h₁
  have h₂ : c.advance.advance.kind = .kwVoid := h₂
  refine reads_spanned (reads_advance_bind hc (by simp [h₀]) fun hd => ?_)
  refine reads_advance_bind hd (by simp [h₁]) fun hd => ?_
  refine reads_advance_bind hd (by simp [h₂]) fun hd => ?_
  refine reads_expectIdent_bind hd fun d n hd _ hn => ?_
  refine (reads_expectAll hd (by decide)).bind ?_
  rintro d ls b hd - ⟨rfl, hls⟩
  refine reads_expectIdent_bind hd fun d x hd _ hx => ?_
  refine reads_expect_bind hd (by decide) fun d r hd _ hr => ?_
  refine (reads_methodBody hd).bind ?_
  rintro d us body hd - ⟨b, rfl, hb⟩
  refine reads_pure hd fun s hs => ?_
  rw [List.append_nil] at hs ⊢
  have hfront : [c.current, c.advance.current, c.advance.advance.current].map Token.kind
      = [.kwPublic, .kwStatic, .kwVoid] := by
    show [c.kind, c.advance.kind, c.advance.advance.kind] = _
    rw [h₀, h₁, h₂]
  refine ⟨⟨_, n, ls, x, r, us, rfl, hfront, hn, hls, hx, hr, b, rfl, hb.1⟩, ?_⟩
  have hheader := Outline.fits_signs (texts ["(", "String", "[", "]"])
    (.cons (by decide) (.cons (by decide) (.cons (by decide) (.cons (by decide) .nil)))) hls
  have hwords := Outline.fits_signs (texts ["public", "static", "void"])
    (.cons (by decide) (.cons (by decide) (.cons (by decide) .nil))) hfront
  have hrest := hheader.append ((hb.2.sign ")" (by decide) hr).ident hx)
  exact (hwords.append (hrest.ident hn)).one _ (hs (by simp))

theorem isModifier_ne_eof {k : Kind} (h : k.isModifier = true) : k ≠ .eof := by
  rintro rfl
  cases h

/-- Single tokens read one after another are the tokens themselves. -/
theorem eq_of_readEach_token {P : Token → Prop} {ms ts : List Token}
    (h : ReadEach (fun m us => us = [m] ∧ P m) ms ts) : ts = ms ∧ ∀ m ∈ ms, P m := by
  induction ms generalizing ts with
  | nil => exact ⟨h, fun m hm => nomatch hm⟩
  | cons m ms ih =>
    obtain ⟨us, vs, rfl, ⟨rfl, hm⟩, hms⟩ := h
    obtain ⟨rfl, hall⟩ := ih hms
    exact ⟨rfl, List.forall_mem_cons.2 ⟨hm, hall⟩⟩

theorem reads_fieldDecl (hc : c.Calm) : fieldDecl.Reads c fun ts x => x.Takes ts := by
  have hmod : ∀ d : Cursor, d.Calm → modifier.Reads d fun ts o =>
      ReadEach (fun m us => us = [m] ∧ m.kind.isModifier = true) o.toList ts := by
    intro d hd
    refine reads_look_bind ?_
    split
    · next hm =>
      refine reads_advance_bind hd (isModifier_ne_eof hm) fun hd' => reads_pure hd' ?_
      exact ReadEach.singleton ⟨rfl, hm⟩
    · exact reads_pure hd rfl
  refine reads_spanned ((reads_untilNone hc hmod).bind fun d ts ms hd _ hms => ?_)
  obtain ⟨rfl, hall⟩ := eq_of_readEach_token hms
  refine reads_declared (fun type name init s => Member.field s (ts.map (·.value))
    (ts.any (·.kind = .kwFinal)) type name init) hd ?_
  intro type name init us hne hread hfits s hs
  refine ⟨⟨ts, us, rfl, hall, rfl, rfl, hread⟩, ?_⟩
  have hwords := Outline.fits_keywords fun m hm => Kind.isKeyword_of_isModifier (hall m hm)
  exact (hwords.append hfits).one _ (hs (List.append_ne_nil_of_right_ne_nil ts hne))

theorem reads_member (hc : c.Calm) : member.Reads c fun ts x => x.Takes ts := by
  refine reads_look_bind ?_
  split
  · next hs => exact reads_mainMethod hc hs
  · exact reads_fieldDecl hc

theorem reads_classDecl (hc : c.Calm) (hs : c.startsClass = true) :
    classDecl.Reads c fun ts x => x.Takes ts := by
  simp only [Cursor.startsClass, Bool.and_eq_true, beq_iff_eq] at hs
  obtain ⟨h₀, h₁⟩ := hs
  rw [← Cursor.ahead_advance c 0] at h₁
  have h₁ : c.advance.kind = .kwClass := h₁
  refine reads_spanned (reads_advance_bind hc (by simp [h₀]) fun hd => ?_)
  refine reads_advance_bind hd (by simp [h₁]) fun hd => ?_
  refine reads_expectIdent_bind hd fun d n hd _ hn => ?_
  refine reads_expect_bind hd (by decide) fun d l hd _ hl => ?_
  refine (reads_whileMore hd (fun x h => x.not_readFrom_nil h.1) fun d hd _ _ =>
    ((reads_member hd).imp fun ts x h => ⟨x, rfl, h⟩).map).bind fun d us members hd _ hms => ?_
  obtain ⟨hreads, hfits⟩ := Outline.fits_readEach hms
  refine reads_expect_bind hd (by decide) fun d r hd _ hr => reads_pure hd fun s hs => ?_
  have hfront : [c.current, c.advance.current].map Token.kind = [.kwPublic, .kwClass] := by
    show [c.kind, c.advance.kind] = _
    rw [h₀, h₁]
  refine ⟨⟨_, n, l, us, r, rfl, hfront, hn, hl, hreads, hr⟩, ?_⟩
  have hwords := Outline.fits_signs (texts ["public", "class"])
    (.cons (by decide) (.cons (by decide) .nil)) hfront
  have hbody := hfits.between "\x7b" "\x7d" (by decide) hl (by decide) hr
  exact (hwords.append (hbody.ident hn)).one _ (hs (by simp))

theorem reads_classOrSkip (hc : c.Calm) :
    classOrSkip.Reads c fun ts o => ∃ x, o = some x ∧ x.Takes ts := by
  refine reads_look_bind ?_
  split
  · next hs => exact ((reads_classDecl hc hs).imp fun ts x h => ⟨x, rfl, h⟩).map
  · exact reads_look_bind (reads_fail_bind hc _)

/-! ### Whole lists of tokens -/

theorem reads_statements (hc : c.Calm) : statements.Reads c fun ts x => x.Takes ts := by
  refine reads_spanned ((reads_whileMore hc (fun x h => x.not_readFrom_nil h.1) fun d hd _ _ =>
    reads_statement hd).bind fun d us stmts hd _ hstmts => reads_pure hd fun s hs => ?_)
  obtain ⟨hreads, hfits⟩ := Outline.fits_readEach hstmts
  rw [List.append_nil] at hs ⊢
  exact ⟨hreads, fun hne => hfits.one _ (hs hne)⟩

theorem reads_classes (hc : c.Calm) :
    classes.Reads c fun ts xs => ReadEach ClassDecl.Takes xs ts :=
  reads_whileMore hc (fun x h => x.not_readFrom_nil h.1) fun _ hd _ _ => reads_classOrSkip hd

theorem reads_program (hc : c.Calm) : program.Reads c fun ts x => x.Takes ts := by
  have hlisten : (listen classes).Reads c fun ts x =>
      x.2 = [] ∧ ReadEach ClassDecl.Takes x.1 ts := by
    intro hd
    obtain ⟨hc', ts, hts, hq⟩ := reads_classes hc hd
    exact ⟨hc', ts, hts, hd, hq⟩
  refine reads_spanned (hlisten.bind ?_)
  rintro d us ⟨xs, errors⟩ hd - ⟨rfl, hxs⟩
  obtain ⟨hreads, hfits⟩ := Outline.fits_readEach hxs
  show Reads (if _ then _ else _) d _
  split
  · exact reads_fail_bind hd _
  · next hne =>
    refine reads_pure hd fun s hs => ?_
    rw [List.append_nil] at hs ⊢
    exact ⟨⟨by simpa using hne, hreads⟩, fun hne => hfits.one _ (hs hne)⟩

end Parse

/-- Before the first token of a list without cut-off literals there is calm. -/
theorem Cursor.calm_ofTokens {tokens : List Token} (h : ∀ t ∈ tokens, t.unterminated = false) :
    (Cursor.ofTokens tokens).Calm := by
  have hstop := kind_stop_ofTokens (ρ := .short) tokens
  rw [ofTokens_short] at hstop ⊢
  exact ⟨rfl, fun _ ht => (nomatch ht), fun t ht => h t (List.takeWhile_subset _ ht), hstop⟩

theorem takeWhile_before_end {ts : List Token} {e : Token} (he : e.kind = .eof)
    (hts : ∀ t ∈ ts, t.kind ≠ .eof) : (ts ++ [e]).takeWhile (·.kind ≠ .eof) = ts := by
  rw [List.takeWhile_append_of_pos (by simpa using hts), List.takeWhile_cons_of_neg (by simp [he]),
    List.append_nil]

/-- A run to the end of a list without complaints takes all tokens before the end of input. -/
theorem takes_of_parseWith {p : Parse .short Root}
    (hp : ∀ c : Cursor, c.Calm → p.Reads c fun ts x => x.Takes ts)
    (hend : ∀ c, (p c).cursor.rest = []) {tokens : List Token}
    (h : ∀ t ∈ tokens, t.unterminated = false) (hd : (parseWith p tokens).diagnostics = []) :
    (parseWith p tokens).root.Takes (tokens.takeWhile (·.kind ≠ .eof)) := by
  obtain ⟨-, ts, hts, htakes⟩ := hp _ (Cursor.calm_ofTokens h) hd
  have hall : tokens.takeWhile (·.kind ≠ .eof) = ts := by
    have hrest := hts.rest
    rwa [hend, List.append_nil, Cursor.rest_ofTokens] at hrest
  rw [hall]
  exact htakes

end JavaPrimer

import JavaPrimer.Proofs.MirroredExpr

/-!
# Statements and classes that mirror each other

Two runs before tokens that are alike read the same statements and classes, as far as the tokens
are the same, and report errors that are alike at the same places; they recover at the same
places. Statements before a closing brace are read as they are before the end of input, as long
as nothing is wrong with them.

* `Mirror.mirrors_varDecl`, `Mirror.mirrors_printStmt`, `Mirror.mirrors_exprStmt` — the statements;
* `Mirror.mirroring_statementWith`, `Mirror.mirroring_statement` — one statement;
* `Mirror.mirroring_blockStatements` — the statements of a block;
* `Mirror.mirrors_statements`, `Mirror.mirrors_program` — whole runs.
-/

namespace JavaPrimer

namespace Mirror

open Parse

variable {ρ : Reach} {M : Mirror ρ} {n : Nat} {c : Cursor} {d : Cursor ρ}

/-! ### Parts of declarations -/

theorem mirrors_typeSpec (hc : M.Places n c d) :
    M.Mirrors n (Option.Rel M.Same) typeSpec typeSpec c d := by
  apply mirrors_look_bind
  by_cases hk : c.kind = .eof → M.behind = []
  · have htoken := hc.current hk
    rw [(M.alike _ _ htoken).kind]
    split
    · next hword =>
      apply mirrors_spanned hc hk
      apply mirrors_advance_bind hc (isTypeWord_ne_eof hword)
      intro _ _ _ h₁
      have h₁ := h₁.mono (Nat.sub_le n 1)
      have hbracket := h₁.isKind (k := .lbracket) (by decide)
      have hplain : ∀ (s : Span) (closed : Bool), Option.Rel M.Same
          (some (⟨s, c.current.value, closed⟩ : TypeSpec)) (some ⟨s, d.current.value, closed⟩) := by
        intro s closed
        apply Option.Rel.some
        intro he
        rw [he _ _ htoken]
      apply mirrors_look_bind
      apply mirrors_if hbracket
      · intro hopen
        have hne : c.advance.kind ≠ .eof := by
          rw [beq_iff_eq.1 hopen]
          decide
        apply mirrors_advance_bind h₁ hne
        intro _ _ _ h₂
        apply (mirrors_expect (h₂.mono (Nat.sub_le n 1)) (by decide)).bind
        rintro _ closed c₃ d₃ ⟨rfl, -⟩ h₃
        exact mirrors_pure h₃ fun s => hplain s closed
      · exact fun _ => mirrors_pure h₁ fun s => hplain s false
    · apply mirrors_fail_bind hc fun _ => .type htoken
      exact fun c' d' h => mirrors_pure h .none
  · obtain ⟨hend, hbehind⟩ := Classical.not_imp.1 hk
    apply mirrors_of_complaint hc hbehind
    intro hcalm
    rw [if_neg]
    · exact reads_fail_bind hcalm _
    · rw [show c.current.kind = .eof from hend]
      exact fun hword => nomatch hword

/-- An expression and the semicolon behind it. -/
theorem mirrors_assigned (hc : M.Places n c d) :
    M.Mirrors n M.Same assigned assigned c d := by
  apply (mirrors_expression hc).bind
  intro e f c₁ d₁ hef h₁
  apply mirrors_panicking_bind h₁
  apply mirrors_if rfl
  · exact fun _ => mirrors_pure h₁ hef.same
  intro _
  apply (mirrors_expect h₁ (by decide)).bind
  exact fun _ _ c₂ d₂ _ h₂ => mirrors_pure h₂ hef.same

theorem mirrors_initialized (hc : M.Places n c d) :
    M.Mirrors n M.Same initialized initialized c d := by
  apply mirrors_look_bind
  apply mirrors_if (hc.isKind (by decide))
  · intro hk
    have hne : c.kind ≠ .eof := by
      rw [beq_iff_eq.1 hk]
      decide
    apply mirrors_advance_bind hc hne
    exact fun _ _ _ h₁ => (mirrors_assigned h₁).mono (Nat.sub_le n 1)
  · intro _
    apply (mirrors_expect hc (by decide)).bind
    exact fun _ _ c₁ d₁ _ h₁ => mirrors_pure h₁ fun _ => rfl

theorem mirrors_finalMark (hc : M.Places n c d) :
    M.Mirrors n (fun a b => b = a) finalMark finalMark c d := by
  apply mirrors_look_bind
  apply mirrors_if (hc.isKind (by decide))
  · intro hk
    have hne : c.kind ≠ .eof := by
      rw [beq_iff_eq.1 hk]
      decide
    apply mirrors_advance_bind hc hne
    exact fun _ _ _ h₁ => mirrors_pure (h₁.mono (Nat.sub_le n 1)) rfl
  · exact fun _ => mirrors_pure hc rfl

/-! ### Statements that hold expressions -/

/-- A type, a name and an initializer, of a local declaration as well as of a field. -/
theorem mirrors_declared {α : Type} (build build' : Option TypeSpec → Ident → Expr → Span → α)
    (hbuild : ∀ t x e s, M.Same (build t x e s) (build' t x e s)) (hc : M.Places n c d) :
    M.Mirrors n (fun f g => ∀ s, M.Same (f s) (g s))
      (typeSpec >>= fun type => match type with
        | none => Pure.pure fun span => build none .absent .missing span
        | some type => expectIdent >>= fun x =>
          if x.2 then initialized >>= fun init =>
            Pure.pure fun span => build (some type) x.1 init span
          else Pure.pure fun span => build (some type) x.1 .missing span)
      (typeSpec >>= fun type => match type with
        | none => Pure.pure fun span => build' none .absent .missing span
        | some type => expectIdent >>= fun x =>
          if x.2 then initialized >>= fun init =>
            Pure.pure fun span => build' (some type) x.1 init span
          else Pure.pure fun span => build' (some type) x.1 .missing span) c d := by
  apply (mirrors_typeSpec hc).bind
  intro type type' c₁ d₁ htype h₁
  cases htype with
  | none => exact mirrors_pure h₁ fun s => hbuild _ _ _ s
  | @some type type' htype =>
    apply (mirrors_expectIdent h₁).bind
    rintro ⟨name, there⟩ ⟨name', there'⟩ c₂ d₂ ⟨hthere, hname⟩ h₂
    obtain rfl : there' = there := hthere
    have hsame : ∀ {e f : Expr}, M.Same e f → ∀ s,
        M.Same (build (some type) name e s) (build' (some type') name' f s) := by
      intro e f hef s he
      have hpair : name' = name := (Prod.mk.inj (hname he)).1
      rw [htype he, hpair, hef he, hbuild _ _ _ s he]
    apply mirrors_if rfl
    · intro _
      apply (mirrors_initialized h₂).bind
      exact fun e f c₃ d₃ hef h₃ => mirrors_pure h₃ (hsame hef)
    · exact fun _ => mirrors_pure h₂ (hsame fun _ => rfl)

theorem mirrors_varDecl (hc : M.Places n c d) (hk : c.kind ≠ .eof) :
    M.Mirrors n M.Same varDecl varDecl c d := by
  apply mirrors_spanned hc fun he => absurd he hk
  apply (mirrors_finalMark hc).bind
  rintro _ isFinal c₁ d₁ rfl h₁
  exact mirrors_declared (fun t x e s => Stmt.varDecl s isFinal t x e)
    (fun t x e s => Stmt.varDecl s isFinal t x e) (fun _ _ _ _ _ => rfl) h₁

theorem mirrors_printArgument (hc : M.Places n c d) :
    M.Mirrors n M.Same printArgument printArgument c d := by
  apply mirrors_look_bind
  apply mirrors_if (hc.test Kind.startsExpression rfl)
  · exact fun _ => (mirrors_expression hc).imp fun _ _ hef => hef.same
  · exact fun _ => mirrors_pure hc fun _ => rfl

theorem mirrors_printStmt (hc : M.Places n c d) (hs : c.startsPrint = true) :
    M.Mirrors n M.Same printStmt printStmt c d := by
  -- the lookahead has seen the four tokens consumed
  rw [Cursor.startsPrint_meets] at hs
  simp only [Cursor.meets, Bool.and_eq_true, beq_iff_eq, and_true] at hs
  obtain ⟨h₀, h₁, h₂, h₃⟩ := hs
  have k₀ : c.kind ≠ .eof := isWord_ne_eof h₀
  have k₁ : c.advance.kind ≠ .eof := fun he => absurd (h₁.symm.trans he) (by decide)
  have k₂ : c.advance.advance.kind ≠ .eof := isWord_ne_eof h₂
  have k₃ : c.advance.advance.advance.kind ≠ .eof :=
    fun he => absurd (h₃.symm.trans he) (by decide)
  have hprint : ∀ {x y : Ident × Bool} {e f : Expr}, M.Same x y → M.Same e f →
      ∀ s, M.Same (Stmt.print s x.1 e) (Stmt.print s y.1 f) := by
    intro x y e f hxy hef s he
    rw [hxy he, hef he]
  apply mirrors_spanned hc fun he => absurd he k₀
  apply mirrors_advance_bind hc k₀
  intro _ _ _ b₁
  apply mirrors_advance_bind b₁ k₁
  intro _ _ _ b₂
  apply mirrors_advance_bind b₂ k₂
  intro _ _ _ b₃
  apply mirrors_advance_bind b₃ k₃
  intro _ _ _ b₄
  have b₄ : M.Places n _ _ := b₄.mono (by omega)
  apply (mirrors_expectWord b₄).bind
  rintro ⟨method, there⟩ ⟨method', there'⟩ c₅ d₅ ⟨hthere, hmethod⟩ b₅
  obtain rfl : there' = there := hthere
  have hnone := hprint hmethod fun _ => (rfl : Expr.missing = Expr.missing)
  apply mirrors_if rfl
  · exact fun _ => mirrors_pure b₅ hnone
  intro _
  apply (mirrors_expect b₅ (by decide)).bind
  rintro _ opened c₆ d₆ ⟨rfl, -⟩ b₆
  apply mirrors_if rfl
  · intro _
    apply (mirrors_printArgument b₆).bind
    intro arg arg' c₇ d₇ harg b₇
    have hall := hprint hmethod harg
    apply mirrors_panicking_bind b₇
    apply mirrors_if rfl
    · exact fun _ => mirrors_pure b₇ hall
    intro _
    apply (mirrors_expect b₇ (by decide)).bind
    rintro _ closed c₈ d₈ ⟨rfl, -⟩ b₈
    apply mirrors_if rfl
    · intro _
      apply (mirrors_expect b₈ (by decide)).bind
      exact fun _ _ c₉ d₉ _ b₉ => mirrors_pure b₉ hall
    · exact fun _ => mirrors_pure b₈ hall
  · exact fun _ => mirrors_pure b₆ hnone

/-- What cannot be assigned to is told at one place in both runs. -/
theorem like_targetDiagnostic {e f : Expr} (h : M.Exprs e f) :
    Diagnostic.Like M.token e.targetDiagnostic f.targetDiagnostic := by
  constructor
  case span => exact h.span
  case category => exact .inl rfl
  case faithful => exact fun _ => rfl
  case exact => exact fun he => by rw [h.same he]

theorem mirrors_exprStmt (hc : M.Places n c d) (hk : c.kind ≠ .eof) :
    M.Mirrors n M.Same exprStmt exprStmt c d := by
  apply mirrors_spanned hc fun he => absurd he hk
  apply (mirrors_expression hc).bind
  intro e f c₁ d₁ hef h₁
  have hbare : ∀ s, M.Same (Stmt.expr s e .none .nowhere .missing)
      (Stmt.expr s f .none .nowhere .missing) := fun s he => by rw [hef.same he]
  apply mirrors_panicking_bind h₁
  apply mirrors_if rfl
  · exact fun _ => mirrors_pure h₁ hbare
  intro _
  apply mirrors_look_bind
  rw [h₁.test AssignOp.ofKind? rfl]
  cases hop : AssignOp.ofKind? c₁.kind with
  | none =>
    apply (mirrors_expect h₁ (by decide)).bind
    exact fun _ _ c₂ d₂ _ h₂ => mirrors_pure h₂ hbare
  | some op =>
    have hne : c₁.kind ≠ .eof := by
      intro he
      rw [he] at hop
      cases hop
    apply mirrors_advance_bind h₁ hne
    intro mark mark' hmark h₂
    have h₂ := h₂.mono (Nat.sub_le n 1)
    have hassign : ∀ {v w : Expr}, M.Same v w → ∀ s, M.Same (Stmt.expr s e op mark.span v)
        (Stmt.expr s f op mark'.span w) := by
      intro v w hvw s he
      rw [hef.same he, hvw he, (M.alike _ _ hmark).span]
    apply mirrors_if hef.isAssignable
    · intro _
      apply (mirrors_assigned h₂).bind
      exact fun v w c₃ d₃ hvw h₃ => mirrors_pure h₃ (hassign hvw)
    · intro _
      apply mirrors_report_bind h₂ (like_targetDiagnostic hef)
      intro c₃ d₃ h₃
      apply (mirrors_assigned h₃).bind
      exact fun v w c₄ d₄ hvw h₄ => mirrors_pure h₄ (hassign hvw)

/-! ### Statements -/

theorem goesOn_inBlock : M.GoesOn inBlock inBlock := by
  constructor
  case left =>
    intro c hgo hnil
    simp [inBlock, Cursor.atEnd, hnil] at hgo
  case same =>
    intro m c d h
    cases hc : c.rest with
    | cons t ts =>
      obtain ⟨u, us, hd, htu, -⟩ := h.cons hc
      have hkind : d.kind = c.kind := by
        rw [Cursor.kind, Cursor.kind, Cursor.current_cons hc, Cursor.current_cons hd]
        exact (M.alike t u htu).kind
      simp [inBlock, Cursor.atEnd, hc, hd, hkind]
    | nil =>
      -- the second run is at the end of input too, or before the brace behind it
      obtain ⟨us, hd, hus⟩ := h.rest
      rw [hc] at hus
      cases hus
      cases hbehind : M.behind with
      | nil => simp [inBlock, Cursor.atEnd, hc, hd, hbehind]
      | cons r rs =>
        have hbrace : d.kind = .rbrace := by
          rw [Cursor.kind, Cursor.current_cons (hd.trans hbehind)]
          exact M.closes r (by rw [hbehind]; rfl)
        simp [inBlock, Cursor.atEnd, hc, hbrace]

/-- The statements of a block, if one statement is mirrored. -/
theorem mirroring_blockStatements {inner : Parse .short (Option Stmt)}
    {inner' : Parse ρ (Option Stmt)} (hf : Forward inner)
    (h : M.Mirroring n (Option.Rel M.Same) inner inner') :
    M.Mirroring n (List.Forall₂ M.Same) (whileMore inBlock (recovering Cursor.endStatement inner))
      (whileMore inBlock (recovering Cursor.endStatement inner')) := by
  apply mirroring_whileMore goesOn_inBlock
  · intro m hm c d hc hleft
    exact mirrors_recovering skipsAlike_endStatement hc hleft (h m hm c d hc)
  · exact recovering_lt Cursor.endStatement_skips hf

theorem mirrors_block {inner : Parse .short (Option Stmt)}
    {inner' : Parse ρ (Option Stmt)} (hf : Forward inner)
    (h : M.Mirroring n (Option.Rel M.Same) inner inner') (hc : M.Places (n + 1) c d)
    (hk : c.kind = .lbrace) : M.Mirrors n M.Same (block inner) (block inner') c d := by
  have hne : c.kind ≠ .eof := by simp [hk]
  apply mirrors_spanned hc fun he => absurd he hne
  apply mirrors_advance_bind hc hne
  intro _ _ _ h₁
  apply (mirroring_blockStatements hf h n (Nat.le_refl n) _ _ h₁).bind
  intro xs ys c₂ d₂ hxs h₂
  apply (mirrors_expect h₂ (by decide)).bind
  intro _ _ c₃ d₃ _ h₃
  apply mirrors_pure h₃
  intro s he
  rw [same_list (fun _ _ hxy => hxy) hxs he]

/-- Whatever is spelled freely starts an expression. -/
theorem startsExpression_of_isFree {k : Kind} (h : k.isFree = true) :
    k.startsExpression = true := by
  cases k <;> first | rfl | cases h

/-- One statement, if those of a block in it are mirrored. -/
theorem mirroring_statementWith {inner : Parse .short (Option Stmt)}
    {inner' : Parse ρ (Option Stmt)} (hf : Forward inner)
    (h : M.Mirroring n (Option.Rel M.Same) inner inner') :
    M.Mirroring (n + 1) (Option.Rel M.Same) (statementWith inner) (statementWith inner') := by
  intro m hm c d hc
  have hsome : ∀ a b : Stmt, M.Same a b → Option.Rel M.Same (some a) (some b) :=
    fun _ _ hab => .some hab
  have hle : m - 1 ≤ m := Nat.sub_le m 1
  apply mirrors_look_bind
  apply mirrors_if hc.ident_ident
  · intro hword
    have hident : c.kind = .ident := by
      simp only [Bool.and_eq_true, beq_iff_eq] at hword
      exact hword.1
    have htoken := hc.current fun he => absurd (hident.symm.trans he) (by decide)
    apply mirrors_fail_bind hc fun _ => .unknownType htoken
    exact fun c' d' h' => mirrors_pure h' .none
  intro _
  apply mirrors_if hc.startsPrint
  · exact fun hs => (mirrors_printStmt hc hs).map hsome
  intro _
  apply mirrors_if (hc.test Kind.startsVarDecl rfl)
  · intro hk
    have hne : c.kind ≠ .eof := by
      intro he
      rw [he] at hk
      cases hk
    exact (mirrors_varDecl hc hne).map hsome
  intro _
  apply mirrors_if (hc.test Kind.startsExpression rfl)
  · intro hk
    have hne : c.kind ≠ .eof := by
      intro he
      rw [he] at hk
      cases hk
    exact (mirrors_exprStmt hc hne).map hsome
  intro hexpr
  apply mirrors_if (hc.isKind (by decide))
  · intro hk
    have hblock := mirrors_block hf (h.le (m := m - 1) (by omega)) (hc.mono (by omega))
      (beq_iff_eq.1 hk)
    apply Mirrors.mono _ hle
    apply hblock.bind
    intro a b c₁ d₁ hab h₁
    apply mirrors_pure h₁
    apply Option.Rel.some
    intro he
    rw [hab he]
  · intro _
    apply mirrors_fail_bind hc
    · intro hbehind
      apply Complaint.Like.statement (hc.current fun _ => hbehind)
      rw [← Bool.not_eq_true]
      intro hfree
      exact absurd (hexpr.symm.trans (startsExpression_of_isFree hfree)) (by decide)
    · exact fun c' d' h' => mirrors_pure h' .none

/-- However deep each run may nest, if the first may nest as deep as it has tokens ahead. -/
theorem mirroring_statementWithin : ∀ n k l, n ≤ k → n ≤ l →
    M.Mirroring n (Option.Rel M.Same) (statementWithin k) (statementWithin l) := by
  intro n
  induction n with
  | zero =>
    intro k l _ _ m hm c d hc
    exact absurd (Nat.lt_of_lt_of_le hc.fewer hm) (Nat.not_lt_zero _)
  | succ n ih =>
    intro k l hk hl
    obtain ⟨k, rfl⟩ : ∃ j, k = j + 1 := ⟨k - 1, by omega⟩
    obtain ⟨l, rfl⟩ : ∃ j, l = j + 1 := ⟨l - 1, by omega⟩
    exact mirroring_statementWith (forward_statementWithin k) (ih k l (by omega) (by omega))

theorem mirroring_statement : M.Mirroring n (Option.Rel M.Same) statement statement := by
  intro m _ c d hc hclean
  have hlength := hc.length
  have hfewer := hc.fewer
  have hwithin := mirroring_statementWithin (M := M) (c.rest.length + 1) (c.rest.length + 1)
    (d.rest.length + 1) (Nat.le_refl _) (by omega) _ (Nat.le_refl _) c d hc.tight hclean
  rw [statement, statement]
  exact ⟨hwithin.value, hwithin.diagnostics, hwithin.places.mono (by omega)⟩

/-! ### Whole runs

Only runs with one end of input for both go on to the end. -/

theorem goesOn_atEnd (hbehind : M.behind = []) : 
    M.GoesOn (fun c => !c.atEnd) fun c => !c.atEnd := by
  constructor
  case left =>
    intro c hgo hnil
    simp [Cursor.atEnd, hnil] at hgo
  case same =>
    intro m c d h
    rw [Bool.eq_iff_iff]
    simp only [Cursor.atEnd, Bool.not_eq_true', List.isEmpty_eq_false_iff, ne_eq,
      h.rest_nil hbehind]

theorem mirrors_statements (hbehind : M.behind = []) (hc : M.Places n c d) :
    M.Mirrors n M.Same statements statements c d := by
  apply mirrors_spanned hc fun _ => hbehind
  have hstmts : M.Mirroring n (List.Forall₂ M.Same)
      (whileMore (fun c => !c.atEnd) (recovering Cursor.endStatement statement))
      (whileMore (fun c => !c.atEnd) (recovering Cursor.endStatement statement)) := by
    apply mirroring_whileMore (goesOn_atEnd hbehind)
    · intro m hm c d hc hleft
      exact mirrors_recovering skipsAlike_endStatement hc hleft (mirroring_statement m hm c d hc)
    · exact recovering_lt Cursor.endStatement_skips forward_statement
  apply (hstmts n (Nat.le_refl n) c d hc).bind
  intro xs ys c₁ d₁ hxs h₁
  apply mirrors_pure h₁
  intro s he
  rw [same_list (fun _ _ hxy => hxy) hxs he]

theorem mirrors_methodBody (hc : M.Places n c d) :
    M.Mirrors n (Option.Rel M.Same) methodBody methodBody c d := by
  apply mirrors_look_bind
  apply mirrors_if (hc.isKind (by decide))
  · intro hk
    have hblock := mirrors_block forward_statement (mirroring_statement (M := M))
      (hc.mono (Nat.le_succ n)) (beq_iff_eq.1 hk)
    exact hblock.map fun _ _ hab => .some hab
  · intro _
    apply (mirrors_expect hc (by decide)).bind
    exact fun _ _ c₁ d₁ _ h₁ => mirrors_pure h₁ .none

theorem mirrors_mainMethod (hc : M.Places n c d) (hs : c.startsMain = true) :
    M.Mirrors n M.Same mainMethod mainMethod c d := by
  rw [Cursor.startsMain_meets] at hs
  simp only [Cursor.meets, Bool.and_eq_true, beq_iff_eq, and_true] at hs
  obtain ⟨h₀, h₁, h₂⟩ := hs
  have k₀ : c.kind ≠ .eof := fun he => absurd (h₀.symm.trans he) (by decide)
  have k₁ : c.advance.kind ≠ .eof := fun he => absurd (h₁.symm.trans he) (by decide)
  have k₂ : c.advance.advance.kind ≠ .eof := fun he => absurd (h₂.symm.trans he) (by decide)
  have hmain : ∀ {x y p q : Ident × Bool} {a b : Option Block}, M.Same x y → M.Same p q →
      M.Same a b → ∀ s, M.Same (Member.main s x.1 p.1 a) (Member.main s y.1 q.1 b) := by
    intro x y p q a b hxy hpq hab s he
    rw [hxy he, hpq he, hab he]
  have habsent : M.Same (Ident.absent, false) (Ident.absent, false) := fun _ => rfl
  have hnobody : M.Same (none : Option Block) none := fun _ => rfl
  apply mirrors_spanned hc fun he => absurd he k₀
  apply mirrors_advance_bind hc k₀
  intro _ _ _ b₁
  apply mirrors_advance_bind b₁ k₁
  intro _ _ _ b₂
  apply mirrors_advance_bind b₂ k₂
  intro _ _ _ b₃
  have b₃ : M.Places n _ _ := b₃.mono (by omega)
  apply (mirrors_expectIdent b₃).bind
  rintro ⟨name, named⟩ ⟨name', named'⟩ c₄ d₄ ⟨hnamed, hname⟩ b₄
  obtain rfl : named' = named := hnamed
  apply mirrors_if rfl
  · exact fun _ => mirrors_pure b₄ (hmain hname habsent hnobody)
  intro _
  apply (mirrors_expectAll b₄ (by decide)).bind
  rintro _ all c₅ d₅ rfl b₅
  apply mirrors_if rfl
  · intro _
    apply (mirrors_expectIdent b₅).bind
    rintro ⟨param, there⟩ ⟨param', there'⟩ c₆ d₆ ⟨hthere, hparam⟩ b₆
    obtain rfl : there' = there := hthere
    apply mirrors_if rfl
    · exact fun _ => mirrors_pure b₆ (hmain hname hparam hnobody)
    intro _
    apply (mirrors_expect b₆ (by decide)).bind
    rintro _ closed c₇ d₇ ⟨rfl, -⟩ b₇
    apply mirrors_if rfl
    · intro _
      apply (mirrors_methodBody b₇).bind
      intro body body' c₈ d₈ hbody b₈
      apply mirrors_pure b₈
      apply hmain hname hparam
      intro he
      cases hbody with
      | none => rfl
      | some hab => rw [hab he]
    · exact fun _ => mirrors_pure b₇ (hmain hname hparam hnobody)
  · exact fun _ => mirrors_pure b₅ (hmain hname habsent hnobody)

/-! ### Classes -/

theorem mirroring_modifier : M.Mirroring n (Option.Rel M.token) modifier modifier := by
  intro m _ c d hc
  apply mirrors_look_bind
  apply mirrors_if (hc.test Kind.isModifier rfl)
  · intro hk
    have hne := isModifier_ne_eof hk
    intro _
    exact ⟨.some (hc.current fun he => absurd he hne), .nil,
      (hc.advance hne).mono (Nat.sub_le m 1)⟩
  · exact fun _ => mirrors_pure hc .none

theorem pays_modifier (c : Cursor) (hs : c.stop.kind = .eof) : Pays modifier c := by
  apply pays_of_left _ _ c hs
  · intro c hc
    apply pays_look_bind
    apply pays_ite
    · exact fun _ => pays_advance_bind (fun _ => forward_pure _) hc
    · exact fun _ => pays_none c
  · intro c hk
    simp [modifier, look, hk, show Kind.isModifier .eof = false from rfl]

theorem mirrors_fieldDecl (hc : M.Places n c d) (hk : c.kind = .eof → M.behind = []) :
    M.Mirrors n M.Same fieldDecl fieldDecl c d := by
  apply mirrors_spanned hc hk
  have hmods := mirroring_untilNone mirroring_modifier pays_modifier (M := M) (n := n)
  apply (hmods n (Nat.le_refl n) c d hc).bind
  intro ms ms' c₁ d₁ hms h₁
  apply mirrors_declared
    (fun t x e s => Member.field s (ms.map (·.value)) (ms.any (·.kind = .kwFinal)) t x e)
    (fun t x e s => Member.field s (ms'.map (·.value)) (ms'.any (·.kind = .kwFinal)) t x e)
  · intro t x e s he
    rw [same_list (fun _ _ htu he => he _ _ htu) hms he]
  · exact h₁

theorem mirrors_member (hc : M.Places n c d) (hk : c.kind = .eof → M.behind = []) :
    M.Mirrors n M.Same member member c d := by
  apply mirrors_look_bind
  apply mirrors_if hc.startsMain
  · exact fun hs => mirrors_mainMethod hc hs
  · exact fun _ => mirrors_fieldDecl hc hk

theorem mirrors_classDecl (hbehind : M.behind = []) (hc : M.Places n c d)
    (hs : c.startsClass = true) : M.Mirrors n M.Same classDecl classDecl c d := by
  rw [Cursor.startsClass_meets] at hs
  simp only [Cursor.meets, Bool.and_eq_true, beq_iff_eq, and_true] at hs
  obtain ⟨h₀, h₁⟩ := hs
  have k₀ : c.kind ≠ .eof := fun he => absurd (h₀.symm.trans he) (by decide)
  have k₁ : c.advance.kind ≠ .eof := fun he => absurd (h₁.symm.trans he) (by decide)
  have hclass : ∀ {x y : Ident × Bool} {xs ys : List Member}, M.Same x y →
      List.Forall₂ M.Same xs ys → ∀ s, M.Same (ClassDecl.mk s x.1 xs) ⟨s, y.1, ys⟩ := by
    intro x y xs ys hxy hxs s he
    rw [hxy he, same_list (fun _ _ h => h) hxs he]
  have hmember : ∀ m, m ≤ n → ∀ c d, M.Places m c d → c.rest ≠ [] →
      M.Mirrors m (Option.Rel M.Same) (recovering Cursor.endMember (some <$> member))
        (recovering Cursor.endMember (some <$> member)) c d := by
    intro m _ c d hc hleft
    apply mirrors_recovering skipsAlike_endMember hc hleft
    exact (mirrors_member hc fun _ => hbehind).map fun _ _ hab => .some hab
  apply mirrors_spanned hc fun he => absurd he k₀
  apply mirrors_advance_bind hc k₀
  intro _ _ _ b₁
  apply mirrors_advance_bind b₁ k₁
  intro _ _ _ b₂
  have b₂ : M.Places n _ _ := b₂.mono (by omega)
  apply (mirrors_expectIdent b₂).bind
  rintro ⟨name, named⟩ ⟨name', named'⟩ c₃ d₃ ⟨hnamed, hname⟩ b₃
  obtain rfl : named' = named := hnamed
  apply mirrors_if rfl
  · exact fun _ => mirrors_pure b₃ (hclass hname .nil)
  intro _
  apply (mirrors_expect b₃ (by decide)).bind
  rintro _ opened c₄ d₄ ⟨rfl, -⟩ b₄
  apply mirrors_if rfl
  · intro _
    have hmembers := mirroring_whileMore goesOn_inBlock hmember
      (recovering_lt Cursor.endMember_skips (forward_map _ forward_member))
    apply (hmembers n (Nat.le_refl n) _ _ b₄).bind
    intro xs ys c₅ d₅ hxs b₅
    apply (mirrors_expect b₅ (by decide)).bind
    exact fun _ _ c₆ d₆ _ b₆ => mirrors_pure b₆ (hclass hname hxs)
  · exact fun _ => mirrors_pure b₄ (hclass hname .nil)

theorem mirrors_classOrSkip (hbehind : M.behind = []) (hc : M.Places n c d) :
    M.Mirrors n (Option.Rel M.Same) classOrSkip classOrSkip c d := by
  apply mirrors_look_bind
  apply mirrors_if hc.startsClass
  · exact fun hs => (mirrors_classDecl hbehind hc hs).map fun _ _ hab => .some hab
  · intro _
    apply mirrors_look_bind
    apply mirrors_fail_bind hc fun _ => .classDecl (hc.current fun _ => hbehind)
    exact fun c' d' h => mirrors_pure h .none

theorem mirroring_classes (hbehind : M.behind = []) :
    M.Mirroring n (List.Forall₂ M.Same) classes classes := by
  apply mirroring_whileMore (goesOn_atEnd hbehind)
  · intro m _ c d hc hleft
    exact mirrors_recovering skipsAlike_endClass hc hleft (mirrors_classOrSkip hbehind hc)
  · exact recovering_lt Cursor.endClass_skips forward_classOrSkip

theorem isEmpty_eq {α : Type} {R : α → α → Prop} {xs ys : List α} (h : List.Forall₂ R xs ys) :
    ys.isEmpty = xs.isEmpty := by
  cases h <;> rfl

theorem mirrors_program (hbehind : M.behind = []) (hc : M.Places n c d) :
    M.Mirrors n M.Same program program c d := by
  apply mirrors_spanned hc fun _ => hbehind
  have hlisten : M.Mirrors n (fun a b => List.Forall₂ M.Same a.1 b.1
      ∧ b.2.isEmpty = a.2.isEmpty) (listen classes) (listen classes) c d := by
    intro hclean
    have hs := mirroring_classes hbehind n (Nat.le_refl n) c d hc hclean
    exact ⟨⟨hs.value, isEmpty_eq hs.diagnostics⟩, hs.diagnostics, hs.places⟩
  apply hlisten.bind
  rintro ⟨xs, errors⟩ ⟨ys, errors'⟩ c₁ d₁ ⟨hxs, herrors⟩ h₁
  have hclasses : M.Same xs ys := same_list (fun _ _ h => h) hxs
  have hprogram : ∀ s, M.Same (Root.program s xs) (.program s ys) := by
    intro s he
    rw [hclasses he]
  have hnone : (ys.isEmpty && errors'.isEmpty) = (xs.isEmpty && errors.isEmpty) := by
    rw [isEmpty_eq hxs, herrors]
  apply mirrors_if hnone
  · intro _
    apply mirrors_fail_bind h₁ fun _ => .noClass
    intro c₂ d₂ h₂ _
    exact ⟨hprogram, .nil, h₂.panic hbehind false⟩
  · exact fun _ => mirrors_pure h₁ hprogram

end Mirror

end JavaPrimer

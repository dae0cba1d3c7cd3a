import JavaPrimer.Proofs.CleanRun
import JavaPrimer.Proofs.Likeness
import Mathlib.Data.List.Forall2

/-!
# Two runs that mirror each other

Two runs of one parser stand before tokens that are alike, one by one. Behind the tokens of the
second run more of them may stand, if a closing brace comes first and the first run reports
nothing: up to there no step can tell the brace from the end of input except by complaining.
Whatever the second run holds behind its end of input stays there. This module has what the two runs
see; that they do the same is in the modules that follow.

* `Mirror` — a relation between tokens that are alike, and the tokens behind the second run;
* `Mirror.Places` — two cursors at the same place;
* `Mirror.Places.current`, `Mirror.Places.test` — the next token and its kind;
* `Cursor.meets`, `Mirror.Places.meets` — looking further ahead;
* `Mirror.Places.diagnostic` — an error at both places.
-/

namespace JavaPrimer

/-- What two runs may differ in: how their tokens are spelled, and what stands behind them. -/
structure Mirror (ρ : Reach := .short) where
  token : Token → Token → Prop
  alike : ∀ t u, token t u → t.Alike u
  /-- The tokens of the second run behind those of the first. -/
  behind : List Token
  closes : ∀ t ∈ behind.head?, t.kind = .rbrace
  /-- What the second run holds of the tokens behind its end of input. -/
  held : ρ.Held

namespace Mirror

variable {ρ : Reach} {M : Mirror ρ}

/-- The same as far as the tokens are the same. -/
def Same (M : Mirror ρ) {α : Type} (a b : α) : Prop := Token.Exact M.token → b = a

/-- Two cursors at the same place, with fewer than `n` tokens ahead in the first run. Either both
runs have the same end of input, or the first is in calm. -/
structure Places (M : Mirror ρ) (n : Nat) (c : Cursor) (d : Cursor ρ) : Prop where
  last : Option.Rel M.token c.last d.last
  panicking : d.panicking = c.panicking
  rest : ∃ us, d.rest = us ++ M.behind ∧ List.Forall₂ M.token c.rest us
  stop : c.stop.kind = .eof
  held : d.behind = M.held
  ends : M.behind = [] ∧ M.token c.stop d.stop ∨ M.behind ≠ [] ∧ c.Calm
  fewer : c.rest.length < n

namespace Places

variable {n : Nat} {c : Cursor} {d : Cursor ρ}

/-! ### What both runs see -/

theorem mono {m : Nat} (h : M.Places n c d) (hm : n ≤ m) : M.Places m c d :=
  { h with fewer := Nat.lt_of_lt_of_le h.fewer hm }

/-- The bound of the run itself. -/
theorem tight (h : M.Places n c d) : M.Places (c.rest.length + 1) c d :=
  { h with fewer := Nat.lt_succ_self _ }

theorem length (h : M.Places n c d) : d.rest.length = c.rest.length + M.behind.length := by
  obtain ⟨us, hd, hus⟩ := h.rest
  rw [hd, List.length_append, hus.length_eq]

theorem length_eq (h : M.Places n c d) (hbehind : M.behind = []) :
    d.rest.length = c.rest.length := by
  rw [h.length, hbehind, List.length_nil, Nat.add_zero]

/-- Before a token of the first run the second stands before the one that is like it. -/
theorem cons (h : M.Places n c d) {t : Token} {ts : List Token} (hc : c.rest = t :: ts) :
    ∃ u us, d.rest = u :: (us ++ M.behind) ∧ M.token t u ∧ List.Forall₂ M.token ts us := by
  obtain ⟨us, hd, hus⟩ := h.rest
  rw [hc] at hus
  cases hus with
  | @cons _ u _ us htu hus => exact ⟨u, us, hd, htu, hus⟩

theorem current (h : M.Places n c d) (hk : c.kind = .eof → M.behind = []) :
    M.token c.current d.current := by
  cases hc : c.rest with
  | cons t ts =>
    obtain ⟨u, us, hd, htu, -⟩ := h.cons hc
    rw [Cursor.current_cons hc, Cursor.current_cons hd]
    exact htu
  | nil =>
    have hkind : c.kind = .eof := by
      simpa [Cursor.kind, Cursor.current, Cursor.ahead_short, hc] using h.stop
    obtain ⟨us, hd, hus⟩ := h.rest
    have hbehind := hk hkind
    rw [hc] at hus
    cases hus
    have hstop : M.token c.stop d.stop := by
      rcases h.ends with ⟨-, hstop⟩ | ⟨hne, -⟩
      · exact hstop
      · exact absurd hbehind hne
    have hd : d.rest = [] := by rw [hd, hbehind, List.append_nil]
    rwa [Cursor.current_nil hc, Cursor.current_nil hd]

/-- The kinds of the next tokens are the same, unless one is the brace behind the end. -/
theorem kind_cases (h : M.Places n c d) : d.kind = c.kind ∨ c.kind = .eof ∧ d.kind = .rbrace := by
  by_cases hbehind : M.behind = []
  · exact .inl (M.alike _ _ (h.current fun _ => hbehind)).kind
  cases hc : c.rest with
  | cons t ts =>
    obtain ⟨u, us, hd, htu, -⟩ := h.cons hc
    left
    rw [Cursor.kind, Cursor.kind, Cursor.current_cons hc, Cursor.current_cons hd]
    exact (M.alike t u htu).kind
  | nil =>
    obtain ⟨us, hd, hus⟩ := h.rest
    obtain ⟨r, rs, hr⟩ := List.exists_cons_of_ne_nil hbehind
    rw [hc] at hus
    cases hus
    have hkind : r.kind = .rbrace := M.closes r (by rw [hr]; rfl)
    right
    constructor
    · simpa [Cursor.kind, Cursor.current, Cursor.ahead_short, hc] using h.stop
    · rw [Cursor.kind, Cursor.current_cons (hd.trans hr), hkind]

/-- A test that takes the brace for the end of input has one outcome in both runs. -/
theorem test (h : M.Places n c d) {β : Type} (f : Kind → β) (hf : f .rbrace = f .eof) :
    f d.kind = f c.kind := by
  rcases h.kind_cases with hk | ⟨hc, hd⟩
  · rw [hk]
  · rw [hc, hd, hf]

/-- One kind of token is ahead in both runs or in neither. -/
theorem isKind (h : M.Places n c d) {k : Kind} (hk : k ≠ .rbrace ∧ k ≠ .eof) :
    (d.kind == k) = (c.kind == k) := by
  apply h.test (· == k)
  rw [beq_eq_false_iff_ne.2 hk.1.symm, beq_eq_false_iff_ne.2 hk.2.symm]

theorem last_cases (h : M.Places n c d) : c.last = none ∧ d.last = none
    ∨ ∃ t u, c.last = some t ∧ d.last = some u ∧ M.token t u := by
  have hlast := h.last
  generalize c.last = x at hlast
  generalize d.last = y at hlast
  cases hlast with
  | none => exact .inl ⟨rfl, rfl⟩
  | some htu => exact .inr ⟨_, _, rfl, rfl, htu⟩

theorem spanSince (h : M.Places n c d) (start : Span) : d.spanSince start = c.spanSince start := by
  rcases h.last_cases with ⟨hc, hd⟩ | ⟨t, u, hc, hd, htu⟩
  · simp only [Cursor.spanSince, hc, hd]
  · simp only [Cursor.spanSince, hc, hd, (M.alike t u htu).span]

theorem advance_of_ne (h : M.Places n c d) (hleft : c.rest ≠ []) :
    M.Places (n - 1) c.advance d.advance := by
  obtain ⟨t, ts, hc⟩ := List.exists_cons_of_ne_nil hleft
  obtain ⟨u, us, hd, htu, hus⟩ := h.cons hc
  have hfewer := h.fewer
  rw [hc, List.length_cons] at hfewer
  have hends : M.behind = [] ∧ M.token c.advance.stop d.advance.stop
      ∨ M.behind ≠ [] ∧ c.advance.Calm := by
    rw [Cursor.stop_advance, Cursor.advance_cons hd]
    exact h.ends.imp_right fun hcalm => ⟨hcalm.1, hcalm.2.advance⟩
  rw [Cursor.advance_cons hc, Cursor.advance_cons hd] at hends ⊢
  exact ⟨.some htu, h.panicking, ⟨us, rfl, hus⟩, h.stop, h.held, hends,
    by show ts.length < _; omega⟩

/-- Before a token that is not the end of input. -/
theorem ahead_pos (h : M.Places n c d) (hk : c.kind ≠ .eof) : 0 < c.rest.length := by
  obtain ⟨ts, hc⟩ := Cursor.rest_eq_of_kind h.stop hk
  rw [hc]
  exact Nat.succ_pos _

theorem advance (h : M.Places n c d) (hk : c.kind ≠ .eof) :
    M.Places (n - 1) c.advance d.advance := by
  exact h.advance_of_ne (List.length_pos_iff.1 (h.ahead_pos hk))

/-- Where more tokens are ahead in the second run the panic is over in both. -/
theorem panic (h : M.Places n c d) (hbehind : M.behind = []) (b : Bool) :
    M.Places n { c with panicking := b } { d with panicking := b } := by
  refine ⟨h.last, rfl, h.rest, h.stop, h.held, ?_, h.fewer⟩
  rcases h.ends with hends | ⟨hne, -⟩
  · exact .inl hends
  · exact absurd hbehind hne

end Places

end Mirror

/-! ### Looking ahead -/

/-- Whether the next tokens pass some tests, one each. -/
def Cursor.meets {ρ : Reach} : List (Token → Bool) → Cursor ρ → Bool
  | [], _ => true
  | f :: fs, c => f c.current && c.advance.meets fs

namespace Cursor

variable {ρ : Reach}

theorem startsPrint_meets (c : Cursor ρ) : c.startsPrint = c.meets [Token.isWord "System",
    fun t => t.kind == .dot, Token.isWord "out", fun t => t.kind == .dot] := by
  simp only [startsPrint, meets, current, ahead_advance, Bool.and_true, Bool.and_assoc]

theorem startsMain_meets (c : Cursor ρ) : c.startsMain = c.meets [fun t => t.kind == .kwPublic,
    fun t => t.kind == .kwStatic, fun t => t.kind == .kwVoid] := by
  simp only [startsMain, kind, meets, current, ahead_advance, Bool.and_true, Bool.and_assoc]

theorem startsClass_meets (c : Cursor ρ) : c.startsClass
    = c.meets [fun t => t.kind == .kwPublic, fun t => t.kind == .kwClass] := by
  simp only [startsClass, kind, meets, current, ahead_advance, Bool.and_true]

theorem startsCast_meets (c : Cursor ρ) : c.startsCast
    = c.meets [fun t => t.kind == .lparen, fun t => t.kind.isPrimitive] := by
  simp only [startsCast, kind, meets, current, ahead_advance, Bool.and_true]

theorem ident_ident_meets (c : Cursor ρ) : (c.kind == .ident && (c.ahead 1).kind == .ident)
    = c.meets [fun t => t.kind == .ident, fun t => t.kind == .ident] := by
  simp only [kind, meets, current, ahead_advance, Bool.and_true]

theorem atFreshStart_meets (c : Cursor ρ) : c.atFreshStart = (c.kind.startsVarDecl
    || c.meets [Token.isWord "System", fun t => t.kind == .dot]) := by
  simp only [atFreshStart, meets, current, ahead_advance, Bool.and_true]

end Cursor

namespace Mirror

variable {ρ : Reach} {M : Mirror ρ} {n : Nat} {c : Cursor} {d : Cursor ρ}

/-- A test that has one outcome on tokens that are alike, and is failed by an end of input and by
a closing brace. -/
structure Tests (M : Mirror ρ) (f : Token → Bool) : Prop where
  alike : ∀ t u, M.token t u → f u = f t
  passed : ∀ t, f t = true → t.kind ≠ .eof ∧ t.kind ≠ .rbrace

theorem tests_kind {g : Kind → Bool} (hg : g .eof = false ∧ g .rbrace = false) :
    M.Tests fun t => g t.kind := by
  constructor
  · intro t u htu
    rw [(M.alike t u htu).kind]
  · intro t ht
    constructor
    · intro hk
      rw [hk, hg.1] at ht
      cases ht
    · intro hk
      rw [hk, hg.2] at ht
      cases ht

theorem tests_isKind {k : Kind} (hk : k ≠ .eof ∧ k ≠ .rbrace) : M.Tests fun t => t.kind == k :=
  tests_kind (g := (· == k))
    ⟨beq_eq_false_iff_ne.2 hk.1.symm, beq_eq_false_iff_ne.2 hk.2.symm⟩

theorem tests_isWord {word : Text} (hw : word ∈ fixedWords) : M.Tests (Token.isWord word) := by
  constructor
  · exact fun t u htu => (M.alike t u htu).isWord hw
  · intro t ht
    have hk : t.kind = .ident := by
      simp only [Token.isWord, Bool.and_eq_true, beq_iff_eq] at ht
      exact ht.1
    rw [hk]
    decide

/-- Looking ahead goes on only past tokens that are there, so both runs see the same. -/
theorem Places.meets (h : M.Places n c d) {fs : List (Token → Bool)} (hfs : fs.Forall M.Tests) :
    d.meets fs = c.meets fs := by
  induction fs generalizing n c d with
  | nil => rfl
  | cons f fs ih =>
    obtain ⟨hf, hfs⟩ := (List.forall_cons ..).1 hfs
    have hsame : f d.current = f c.current := by
      rcases h.kind_cases with hk | ⟨hc, hd⟩
      · by_cases hend : c.kind = .eof
        · have hpass : ∀ t : Token, t.kind = .eof → f t = false := by
            intro t ht
            rw [← Bool.not_eq_true]
            exact fun htrue => (hf.passed _ htrue).1 ht
          rw [hpass _ hend, hpass _ (hk.trans hend)]
        · exact hf.alike _ _ (h.current fun he => absurd he hend)
      · have hcf : ¬ f c.current = true := fun htrue => (hf.passed _ htrue).1 hc
        have hdf : ¬ f d.current = true := fun htrue => (hf.passed _ htrue).2 hd
        rw [Bool.not_eq_true] at hcf hdf
        rw [hcf, hdf]
    simp only [Cursor.meets, hsame]
    cases hval : f c.current with
    | false => rfl
    | true =>
      have hnext := h.advance (hf.passed _ hval).1
      rw [ih hnext hfs]

theorem Places.startsPrint (h : M.Places n c d) : d.startsPrint = c.startsPrint := by
  rw [Cursor.startsPrint_meets, Cursor.startsPrint_meets]
  exact h.meets ⟨tests_isWord (by decide), tests_isKind (by decide), tests_isWord (by decide),
    tests_isKind (by decide)⟩

theorem Places.startsMain (h : M.Places n c d) : d.startsMain = c.startsMain := by
  rw [Cursor.startsMain_meets, Cursor.startsMain_meets]
  exact h.meets ⟨tests_isKind (by decide), tests_isKind (by decide), tests_isKind (by decide)⟩

theorem Places.startsClass (h : M.Places n c d) : d.startsClass = c.startsClass := by
  rw [Cursor.startsClass_meets, Cursor.startsClass_meets]
  exact h.meets ⟨tests_isKind (by decide), tests_isKind (by decide)⟩

theorem Places.startsCast (h : M.Places n c d) : d.startsCast = c.startsCast := by
  rw [Cursor.startsCast_meets, Cursor.startsCast_meets]
  exact h.meets ⟨tests_isKind (by decide), tests_kind (g := Kind.isPrimitive) ⟨rfl, rfl⟩⟩

theorem Places.ident_ident (h : M.Places n c d) :
    (d.kind == .ident && (d.ahead 1).kind == .ident)
      = (c.kind == .ident && (c.ahead 1).kind == .ident) := by
  rw [Cursor.ident_ident_meets, Cursor.ident_ident_meets]
  exact h.meets ⟨tests_isKind (by decide), tests_isKind (by decide)⟩

theorem Places.atFreshStart (h : M.Places n c d) : d.atFreshStart = c.atFreshStart := by
  have hword : d.meets [Token.isWord "System", fun t => t.kind == .dot]
      = c.meets [Token.isWord "System", fun t => t.kind == .dot] :=
    h.meets ⟨tests_isWord (by decide), tests_isKind (by decide)⟩
  rw [Cursor.atFreshStart_meets, Cursor.atFreshStart_meets, h.test Kind.startsVarDecl rfl, hword]

/-- Where both runs have the same end of input, the next token is the first on its line in both or
in neither. -/
theorem Places.atLineStart (h : M.Places n c d) (hk : c.kind = .eof → M.behind = []) :
    d.atLineStart = c.atLineStart := by
  have hspan := (M.alike _ _ (h.current hk)).span
  rcases h.last_cases with ⟨hc, hd⟩ | ⟨t, u, hc, hd, htu⟩
  · simp only [Cursor.atLineStart, hc, hd, Option.any_none]
  · simp only [Cursor.atLineStart, hc, hd, Option.any_some, hspan, (M.alike t u htu).span]

theorem Places.unterminated (h : M.Places n c d) :
    d.last.any (·.unterminated) = c.last.any (·.unterminated) := by
  rcases h.last_cases with ⟨hc, hd⟩ | ⟨t, u, hc, hd, htu⟩
  · rw [hc, hd]
  · rw [hc, hd]
    exact (M.alike t u htu).unterminated

/-- Errors that are alike are shown at the same place. -/
theorem Places.diagnostic (h : M.Places n c d) (hbehind : M.behind = []) {x y : Complaint}
    (hxy : Complaint.Like M.token x y) : Diagnostic.Like M.token (x.diagnostic c) (y.diagnostic d) := by
  have hcurrent := h.current fun _ => hbehind
  have hspan : y.span d = x.span c := by
    have hkind : d.kind = c.kind := (M.alike _ _ hcurrent).kind
    have hline := h.atLineStart fun _ => hbehind
    rcases h.last_cases with ⟨hc, hd⟩ | ⟨t, u, hc, hd, htu⟩
    · simp only [Complaint.span, hc, hd, (M.alike _ _ hcurrent).span]
    · simp only [Complaint.span, hc, hd, hxy.isCloser M.alike, hkind, hline,
        (M.alike _ _ hcurrent).span, (M.alike t u htu).span]
  have hclosed : ∀ x : Complaint, x.category.closed = x.category := by
    intro x
    rw [Complaint.category, classify_eq, Category.closed, isKnown_categoryOf, if_pos rfl]
  constructor
  case span => exact hspan
  case category =>
    simp only [Complaint.diagnostic, Diagnostic.make, hclosed]
    exact hxy.category M.alike
  case faithful =>
    intro hf
    simp only [Complaint.diagnostic, Diagnostic.make, hclosed]
    exact hxy.category_of_faithful M.alike hf
  case exact =>
    intro he
    rw [hxy.eq he] at hspan ⊢
    rw [Complaint.diagnostic, Complaint.diagnostic, hspan]

end Mirror

end JavaPrimer

import JavaPrimer.Proofs.InStepStmt
import JavaPrimer.Proofs.Mirroring

/-!
# Steps that mirror each other

At places that mirror each other two steps do the same, and what they give is alike: of the same
shape, at the same places, and the same if the tokens are. Nothing is said of a first run that
complains while more tokens are ahead in the second.

* `Mirror.Reflects` — two outcomes that are alike;
* `Mirror.Mirrors`, `Mirror.Mirroring` — two steps with such outcomes, from one place and from all;
* `Mirror.mirrors_fail`, `Mirror.mirrors_expect`, `Mirror.mirrors_spanned` — the rules for steps;
* `Mirror.mirroring_untilNone`, `Mirror.mirroring_whileMore` — repetition, whatever bound each run
  has;
* `Mirror.SkipsAlike`, `Mirror.mirrors_recovering` — recovery.
-/

namespace JavaPrimer

namespace Mirror

open Parse

variable {ρ : Reach} {M : Mirror ρ} {n : Nat} {c : Cursor} {d : Cursor ρ}

/-! ### Steps -/

variable {α β : Type} {V : α → α → Prop} {W : β → β → Prop} {m : Nat}

/-- Two outcomes with values that are related, diagnostics that are alike, at the same place. -/
structure Reflects (M : Mirror ρ) (n : Nat) (V : α → α → Prop) (s : Step .short α) (t : Step ρ α) :
    Prop where
  value : V s.value t.value
  diagnostics : List.Forall₂ (Diagnostic.Like M.token) s.diagnostics t.diagnostics
  places : M.Places n s.cursor t.cursor

/-- The outcomes of two steps at two places, unless the first complains while more tokens are
ahead in the second run. -/
def Mirrors (M : Mirror ρ) (n : Nat) (V : α → α → Prop) (p : Parse .short α) (q : Parse ρ α)
    (c : Cursor) (d : Cursor ρ) : Prop :=
  M.behind = [] ∨ (p c).diagnostics = [] → M.Reflects n V (p c) (q d)

/-- Two steps that mirror each other wherever fewer than `n` tokens are ahead in the first run. -/
def Mirroring (M : Mirror ρ) (n : Nat) (V : α → α → Prop) (p : Parse .short α) (q : Parse ρ α) :
    Prop :=
  ∀ m, m ≤ n → ∀ c d, M.Places m c d → M.Mirrors m V p q c d

/-! ### Rules for steps -/

theorem Mirroring.le {p : Parse .short α} {q : Parse ρ α} (h : M.Mirroring n V p q) (hm : m ≤ n) :
    M.Mirroring m V p q :=
  fun k hk => h k (Nat.le_trans hk hm)

theorem Mirrors.imp {V' : α → α → Prop} {p : Parse .short α} {q : Parse ρ α}
    (h : M.Mirrors n V p q c d) (hV : ∀ a b, V a b → V' a b) : M.Mirrors n V' p q c d := by
  intro hclean
  have hs := h hclean
  exact ⟨hV _ _ hs.value, hs.diagnostics, hs.places⟩

theorem Mirrors.mono {p : Parse .short α} {q : Parse ρ α} (h : M.Mirrors m V p q c d) (hm : m ≤ n) :
    M.Mirrors n V p q c d := by
  intro hclean
  have hs := h hclean
  exact ⟨hs.value, hs.diagnostics, hs.places.mono hm⟩

theorem mirrors_pure (h : M.Places n c d) {a b : α} (hab : V a b) :
    M.Mirrors n V (Pure.pure a) (Pure.pure b) c d :=
  fun _ => ⟨hab, .nil, h⟩

/-- Steps mirror each other in sequence if the second do from where the first leave off. -/
theorem Mirrors.bind_at {p : Parse .short α} {q : Parse ρ α} {f : α → Parse .short β}
    {g : α → Parse ρ β} (h : M.Mirrors m V p q c d)
    (hf : V (p c).value (q d).value → M.Places m (p c).cursor (q d).cursor →
      M.Mirrors n W (f (p c).value) (g (q d).value) (p c).cursor (q d).cursor) :
    M.Mirrors n W (p >>= f) (q >>= g) c d := by
  intro hclean
  rw [bind_apply] at hclean ⊢
  rw [bind_apply]
  have hfirst := h (hclean.imp_right fun hnil => (List.append_eq_nil_iff.1 hnil).1)
  have hsecond := hf hfirst.value hfirst.places
    (hclean.imp_right fun hnil => (List.append_eq_nil_iff.1 hnil).2)
  exact ⟨hsecond.value, List.rel_append hfirst.diagnostics hsecond.diagnostics, hsecond.places⟩

theorem Mirrors.bind {p : Parse .short α} {q : Parse ρ α} {f : α → Parse .short β}
    {g : α → Parse ρ β} (h : M.Mirrors m V p q c d)
    (hf : ∀ a b c' d', V a b → M.Places m c' d' → M.Mirrors n W (f a) (g b) c' d') :
    M.Mirrors n W (p >>= f) (q >>= g) c d :=
  h.bind_at fun hab h' => hf _ _ _ _ hab h'

theorem Mirrors.map {p : Parse .short α} {q : Parse ρ α} {f g : α → β} (h : M.Mirrors n V p q c d)
    (hf : ∀ a b, V a b → W (f a) (g b)) : M.Mirrors n W (f <$> p) (g <$> q) c d := by
  intro hclean
  rw [map_apply] at hclean ⊢
  rw [map_apply]
  have hs := h hclean
  exact ⟨hf _ _ hs.value, hs.diagnostics, hs.places⟩

theorem mirrors_look_bind {γ : Type} {g : Cursor → α} {g' : Cursor ρ → γ} {f : α → Parse .short β}
    {f' : γ → Parse ρ β} (h : M.Mirrors n W (f (g c)) (f' (g' d)) c d) :
    M.Mirrors n W (look g >>= f) (look g' >>= f') c d := h

/-- Both runs take the same branch, since what they test is the same. -/
theorem mirrors_if {b b' : Bool} (hb : b' = b) {p p' : Parse .short α} {q q' : Parse ρ α}
    (hp : b = true → M.Mirrors n V p q c d) (hq : b = false → M.Mirrors n V p' q' c d) :
    M.Mirrors n V (if b then p else p') (if b' then q else q') c d := by
  subst hb
  cases b' with
  | true => exact hp rfl
  | false => exact hq rfl

theorem mirrors_panicking_bind {f : Bool → Parse .short β} {f' : Bool → Parse ρ β}
    (hc : M.Places n c d) (h : M.Mirrors m W (f c.panicking) (f' c.panicking) c d) :
    M.Mirrors m W (panicking >>= f) (panicking >>= f') c d := by
  apply mirrors_look_bind
  rw [hc.panicking]
  exact h

theorem mirrors_spanned {node : Parse .short (Span → α)} {node' : Parse ρ (Span → α)}
    (hc : M.Places n c d) (hk : c.kind = .eof → M.behind = [])
    (h : M.Mirrors m (fun build build' => ∀ s, V (build s) (build' s)) node node' c d) :
    M.Mirrors m V (spanned node) (spanned node') c d := by
  have hspan := (M.alike _ _ (hc.current hk)).span
  apply mirrors_look_bind
  apply h.bind
  intro build build' c' d' hbuild h'
  apply mirrors_look_bind
  rw [hspan, h'.spanSince]
  exact mirrors_pure h' (hbuild _)

/-- Both runs consume a token. -/
theorem mirrors_advance_bind {f : Token → Parse .short β} {f' : Token → Parse ρ β}
    (hc : M.Places n c d) (hk : c.kind ≠ .eof)
    (h : ∀ t u, M.token t u → M.Places (n - 1) c.advance d.advance →
      M.Mirrors m W (f t) (f' u) c.advance d.advance) :
    M.Mirrors m W (advance >>= f) (advance >>= f') c d :=
  h _ _ (hc.current fun he => absurd he hk) (hc.advance hk)

/-! ### Errors -/

/-- Where more tokens are ahead in the second run, nothing is said of a first run that complains in
calm. -/
theorem mirrors_of_complaint (hc : M.Places n c d) (hbehind : M.behind ≠ []) {p : Parse .short α}
    {q : Parse ρ α} (h : c.Calm → p.Reads c fun _ _ => False) : M.Mirrors m V p q c d := by
  intro hclean
  rcases hc.ends with ⟨hnil, -⟩ | ⟨-, hcalm⟩
  · exact absurd hnil hbehind
  · obtain ⟨-, ts, -, hfalse⟩ := h hcalm (hclean.resolve_left hbehind)
    exact hfalse.elim

theorem mirrors_fail (hc : M.Places n c d) {x y : Complaint}
    (hxy : M.behind = [] → Complaint.Like M.token x y) :
    M.Mirrors n (fun _ _ => True) (fail x) (fail y) c d := by
  by_cases hbehind : M.behind = []
  · intro _
    unfold fail
    rw [hc.panicking, hc.unterminated]
    split
    · exact ⟨trivial, .nil, hc⟩
    split
    · exact ⟨trivial, .nil, hc.panic hbehind true⟩
    · exact ⟨trivial, .cons (hc.diagnostic hbehind (hxy hbehind)) .nil, hc.panic hbehind true⟩
  · exact mirrors_of_complaint hc hbehind fun hcalm => reads_fail hcalm x

theorem mirrors_fail_bind (hc : M.Places n c d) {x y : Complaint}
    (hxy : M.behind = [] → Complaint.Like M.token x y) {f : Unit → Parse .short β}
    {f' : Unit → Parse ρ β} (h : ∀ c' d', M.Places n c' d' → M.Mirrors m W (f ()) (f' ()) c' d') :
    M.Mirrors m W (fail x >>= f) (fail y >>= f') c d :=
  (mirrors_fail hc hxy).bind fun _ _ c' d' _ h' => h c' d' h'

/-- A diagnostic that needs no recovery. -/
theorem mirrors_report_bind (hc : M.Places n c d) {x y : Diagnostic}
    (hxy : Diagnostic.Like M.token x y) {f : Unit → Parse .short β} {f' : Unit → Parse ρ β}
    (h : ∀ c' d', M.Places n c' d' → M.Mirrors m W (f ()) (f' ()) c' d') :
    M.Mirrors m W (Parse.report x >>= f) (Parse.report y >>= f') c d := by
  have hreport : M.Mirrors n (fun _ _ => True) (Parse.report x) (Parse.report y) c d := by
    apply mirrors_panicking_bind hc
    cases c.panicking with
    | true => exact mirrors_pure hc trivial
    | false => exact fun _ => ⟨trivial, .cons hxy .nil, hc⟩
  exact hreport.bind fun _ _ c' d' _ h' => h c' d' h'

/-! ### Wanted tokens -/

/-- A token is there in both runs or in neither; if it is not there both have one end of input. -/
theorem mirrors_expect (hc : M.Places n c d) {k : Kind} (hk : k ∈ Complaint.wantedKinds) :
    M.Mirrors n (fun a b => b = a ∧ (a = false → M.behind = [])) (expect k) (expect k) c d := by
  apply mirrors_look_bind
  have hne : k ≠ .eof := by
    rintro rfl
    revert hk
    decide
  by_cases hkind : c.current.kind = k
  · have hce : c.kind ≠ .eof := fun he => hne (hkind.symm.trans he)
    have hd : d.current.kind = k :=
      (M.alike _ _ (hc.current fun he => absurd he hce)).kind.trans hkind
    rw [if_pos hkind, if_pos hd]
    exact mirrors_advance_bind hc hce fun _ _ _ h => mirrors_pure (h.mono (Nat.sub_le n 1)) ⟨rfl, nofun⟩
  · rw [if_neg hkind]
    by_cases hbehind : M.behind = []
    · have htoken := hc.current fun _ => hbehind
      have hd : ¬ d.current.kind = k := by rwa [(M.alike _ _ htoken).kind]
      rw [if_neg hd]
      exact mirrors_fail_bind hc (fun _ => .token hk htoken) fun _ _ h =>
        mirrors_pure h ⟨rfl, fun _ => hbehind⟩
    · -- what is wanted may be the brace behind the end
      exact mirrors_of_complaint hc hbehind fun hcalm => reads_fail_bind hcalm _

theorem mirrors_expectAll (hc : M.Places n c d) {ks : List Kind}
    (hks : ∀ k ∈ ks, k ∈ Complaint.wantedKinds) :
    M.Mirrors n (fun a b => b = a) (expectAll ks) (expectAll ks) c d := by
  induction ks generalizing c d with
  | nil => exact mirrors_pure hc rfl
  | cons k ks ih =>
    apply (mirrors_expect hc (hks k List.mem_cons_self)).bind
    rintro _ there c' d' ⟨rfl, -⟩ h
    cases there with
    | true => exact ih h fun j hj => hks j (List.mem_cons_of_mem k hj)
    | false => exact mirrors_pure h rfl

/-- An identifier is there in both runs or in neither. -/
theorem mirrors_expectIdent (hc : M.Places n c d) :
    M.Mirrors n (fun a b => b.2 = a.2 ∧ M.Same a b) expectIdent expectIdent c d := by
  by_cases hk : c.kind = .eof → M.behind = []
  · have htoken := hc.current hk
    apply mirrors_look_bind
    apply (mirrors_expect hc (by decide)).bind
    rintro _ there c' d' ⟨rfl, -⟩ h
    apply mirrors_pure h
    constructor
    · rfl
    · intro he
      rw [he _ _ htoken]
  · obtain ⟨heof, hbehind⟩ := Classical.not_imp.1 hk
    apply mirrors_of_complaint hc hbehind
    intro hcalm
    apply reads_look_bind
    have hne : ¬ c.current.kind = .ident := by
      rw [show c.current.kind = .eof from heof]
      decide
    apply Reads.bind (Q := fun _ _ => False)
    · apply reads_look_bind
      rw [if_neg hne]
      exact reads_fail_bind hcalm _
    · exact fun _ _ _ _ _ hfalse => hfalse.elim

theorem mirrors_expectWord (hc : M.Places n c d) :
    M.Mirrors n (fun a b => b.2 = a.2 ∧ M.Same a b) (expectWord ["println", "print"])
      (expectWord ["println", "print"]) c d := by
  apply mirrors_look_bind
  by_cases hk : c.kind = .eof → M.behind = []
  · have htoken := hc.current hk
    have halike := M.alike _ _ htoken
    have hsame : (d.current.kind = .ident
          ∧ (["println", "print"] : List Text).contains d.current.value = true)
        ↔ (c.current.kind = .ident
          ∧ (["println", "print"] : List Text).contains c.current.value = true) := by
      rw [halike.kind]
      apply and_congr_right
      intro hident
      rw [halike.contains hident _ (by decide)]
    simp only [hsame]
    split
    · next hword =>
      have hne : c.kind ≠ .eof := by
        intro he
        rw [show c.current.kind = .eof from he] at hword
        cases hword.1
      apply mirrors_advance_bind hc hne
      intro _ _ _ h
      apply mirrors_pure (h.mono (Nat.sub_le n 1))
      constructor
      · rfl
      · intro he
        rw [he _ _ htoken]
    · apply mirrors_fail_bind hc fun _ => .word htoken
      intro c' d' h
      apply mirrors_pure h
      constructor
      · rfl
      · intro he
        rw [he _ _ htoken]
  · obtain ⟨heof, hbehind⟩ := Classical.not_imp.1 hk
    apply mirrors_of_complaint hc hbehind
    intro hcalm
    rw [if_neg]
    · exact reads_fail_bind hcalm _
    · rw [show c.current.kind = .eof from heof]
      exact fun hword => nomatch hword.1

/-! ### Repetition -/

/-- An item that consumes a token whenever it gives something is repeated equally often in both
runs, if each run may repeat it once more than it has tokens ahead. -/
theorem mirrors_collectUntil {item : Parse .short (Option α)} {item' : Parse ρ (Option α)}
    (h : M.Mirroring n (Option.Rel V) item item')
    (hlt : ∀ c : Cursor, c.stop.kind = .eof → Pays item c) :
    ∀ k l c d, M.Places n c d → c.rest.length < k → d.rest.length < l →
      M.Mirrors n (List.Forall₂ V) (collectUntil item k) (collectUntil item' l) c d := by
  intro k
  induction k with
  | zero =>
    intro l c d _ hk _
    exact absurd hk (Nat.not_lt_zero _)
  | succ k ih =>
    intro l c d hc hk hl
    cases l with
    | zero => exact absurd hl (Nat.not_lt_zero _)
    | succ l =>
      apply (h n (Nat.le_refl n) c d hc).bind_at
      intro hvalue h'
      have hless := hlt c hc.stop
      unfold Pays at hless
      have hlength := hc.length
      have hlength' := h'.length
      generalize (item c).value = x at hvalue hless
      generalize (item' d).value = y at hvalue
      cases hvalue with
      | none => exact mirrors_pure h' .nil
      | @some x y hxy =>
        have hshort := hless rfl
        apply (ih l _ _ h' (by omega) (by omega)).bind
        intro xs ys c₂ d₂ hxs h₂
        exact mirrors_pure h₂ (.cons hxy hxs)

theorem mirroring_untilNone {item : Parse .short (Option α)} {item' : Parse ρ (Option α)}
    (h : M.Mirroring n (Option.Rel V) item item')
    (hlt : ∀ c : Cursor, c.stop.kind = .eof → Pays item c) :
    M.Mirroring n (List.Forall₂ V) (untilNone item) (untilNone item') := by
  intro m hm c d hc
  exact mirrors_collectUntil (h.le hm) hlt _ _ c d hc (Nat.lt_succ_self _) (Nat.lt_succ_self _)

/-- A test of whether a repetition goes on: it has one outcome in both runs, and fails at the end
of the first. -/
structure GoesOn (M : Mirror ρ) (more : Cursor → Bool) (more' : Cursor ρ → Bool) : Prop where
  same : ∀ m c d, M.Places m c d → more' d = more c
  left : ∀ c : Cursor, more c = true → c.rest ≠ []

/-- An item that consumes a token each time is repeated equally often in both runs, if each run
may repeat it as often as it has tokens ahead. -/
theorem mirrors_collect {more : Cursor → Bool} {more' : Cursor ρ → Bool}
    (hmore : M.GoesOn more more') {item : Parse .short (Option α)} {item' : Parse ρ (Option α)}
    (h : ∀ m, m ≤ n → ∀ c d, M.Places m c d → c.rest ≠ [] →
      M.Mirrors m (Option.Rel V) item item' c d)
    (hlt : ∀ c, c.rest ≠ [] → (item c).cursor.rest.length < c.rest.length) :
    ∀ k l c d, M.Places n c d → c.rest.length ≤ k → d.rest.length ≤ l →
      M.Mirrors n (List.Forall₂ V) (collect more item k) (collect more' item' l) c d := by
  intro k
  induction k with
  | zero =>
    intro l c d hc hk hl
    have hstop : more c = false := by
      rw [← Bool.not_eq_true]
      exact fun hgo => hmore.left c hgo (List.eq_nil_of_length_eq_zero (Nat.le_zero.1 hk))
    have hnil : collect more' item' l d = ⟨[], [], d⟩ := by
      cases l with
      | zero => rfl
      | succ l => simp [collect, look, (hmore.same n c d hc).trans hstop]
    intro _
    rw [hnil]
    exact ⟨.nil, .nil, hc⟩
  | succ k ih =>
    intro l c d hc hk hl
    have hlength := hc.length
    cases hgo : more c with
    | false =>
      have hnil : collect more' item' l d = ⟨[], [], d⟩ := by
        cases l with
        | zero => rfl
        | succ l => simp [collect, look, (hmore.same n c d hc).trans hgo]
      intro _
      rw [hnil]
      simp only [collect, look, bind_apply, hgo]
      exact ⟨.nil, .nil, hc⟩
    | true =>
      have hleft := hmore.left c hgo
      have hpos := List.length_pos_iff.2 hleft
      obtain ⟨l, rfl⟩ : ∃ j, l = j + 1 := ⟨l - 1, by omega⟩
      apply mirrors_look_bind
      apply mirrors_if (hmore.same n c d hc) (fun _ => ?_) fun hno => absurd (hgo.symm.trans hno) (by decide)
      apply (h n (Nat.le_refl n) c d hc hleft).bind_at
      intro hvalue h'
      have hless := hlt c hleft
      have hlength' := h'.length
      apply (ih l _ _ h' (by omega) (by omega)).bind
      intro xs ys c₂ d₂ hxs h₂
      apply mirrors_pure h₂
      generalize (item c).value = x at hvalue
      generalize (item' d).value = y at hvalue
      cases hvalue with
      | none => exact hxs
      | some hxy => exact .cons hxy hxs

theorem mirroring_whileMore {more : Cursor → Bool} {more' : Cursor ρ → Bool}
    (hmore : M.GoesOn more more') {item : Parse .short (Option α)} {item' : Parse ρ (Option α)}
    (h : ∀ m, m ≤ n → ∀ c d, M.Places m c d → c.rest ≠ [] →
      M.Mirrors m (Option.Rel V) item item' c d)
    (hlt : ∀ c, c.rest ≠ [] → (item c).cursor.rest.length < c.rest.length) :
    M.Mirroring n (List.Forall₂ V) (whileMore more item) (whileMore more' item') := by
  intro m hm c d hc
  exact mirrors_collect hmore (fun k hk => h k (Nat.le_trans hk hm)) hlt _ _ c d hc
    (Nat.le_refl _) (Nat.le_refl _)

/-! ### Recovery -/

/-- A way to skip by which two runs come out at the same place, if both have the same end of
input. -/
def SkipsAlike (M : Mirror ρ) (skip : Nat → Cursor → Cursor)
    (skip' : Nat → Cursor ρ → Cursor ρ) : Prop :=
  M.behind = [] → ∀ n start c d, M.Places n c d → M.Places n (skip start c) (skip' start d)

/-- With one end of input for both runs, other places among the same tokens. -/
theorem Places.moved (h : M.Places n c d) (hbehind : M.behind = []) {x y : Option Token}
    (hlast : Option.Rel M.token x y) {ts us : List Token} (hrest : List.Forall₂ M.token ts us)
    (hfewer : ts.length < n) :
    M.Places n { c with last := x, rest := ts } { d with last := y, rest := us } := by
  refine ⟨hlast, h.panicking, ⟨us, ?_, hrest⟩, h.stop, h.held, ?_, hfewer⟩
  · rw [hbehind, List.append_nil]
  · rcases h.ends with hends | ⟨hne, -⟩
    · exact .inl hends
    · exact absurd hbehind hne

theorem Places.rest_nil (h : M.Places n c d) (hbehind : M.behind = []) :
    d.rest = [] ↔ c.rest = [] := by
  have hlength := h.length_eq hbehind
  rw [← List.length_eq_zero_iff, ← List.length_eq_zero_iff, hlength]

/-- Skipping stops at the same place in both runs. -/
theorem places_skipTo {halt : Cursor → Bool} {halt' : Cursor ρ → Bool} (hbehind : M.behind = [])
    (hhalt : ∀ n c d, M.Places n c d → halt' d = halt c) :
    ∀ n c d, M.Places n c d → M.Places n (c.skipTo halt) (d.skipTo halt') := by
  intro n
  induction n with
  | zero => exact fun c d h => absurd h.fewer (Nat.not_lt_zero _)
  | succ n ih =>
    intro c d h
    by_cases hc : c.rest = []
    · have hd := (h.rest_nil hbehind).2 hc
      rw [Cursor.skipTo_of_nil _ hc, Cursor.skipTo_of_nil _ hd]
      exact h
    have hd : d.rest ≠ [] := fun hnil => hc ((h.rest_nil hbehind).1 hnil)
    cases hval : halt c with
    | true =>
      rw [Cursor.skipTo_of_halt hc hval, Cursor.skipTo_of_halt hd ((hhalt _ c d h).trans hval)]
      exact h
    | false =>
      rw [Cursor.skipTo_of_not_halt hc hval,
        Cursor.skipTo_of_not_halt hd ((hhalt _ c d h).trans hval)]
      obtain ⟨t, ts, hts⟩ := List.exists_cons_of_ne_nil hc
      obtain ⟨u, us, hus, htu, htail⟩ := h.cons hts
      have hfewer := h.fewer
      rw [hts, List.length_cons] at hfewer
      rw [hbehind, List.append_nil] at hus
      rw [Cursor.advance_cons hts, Cursor.advance_cons hus]
      exact (ih _ _ ((h.tight.moved hbehind (.some htu) htail (by rw [hts, List.length_cons]; omega)).tight.mono
        (by show ts.length + 1 ≤ n; omega))).mono (Nat.le_succ n)

/-- So does skipping a body in braces. -/
theorem places_skipBody_loop (h : M.Places n c d) (hbehind : M.behind = []) {ts us : List Token}
    (hrest : List.Forall₂ M.token ts us) :
    ∀ depth x y, Option.Rel M.token x y → ts.length < n →
      M.Places n (Cursor.skipBody.loop c depth x ts) (Cursor.skipBody.loop d depth y us) := by
  induction hrest with
  | nil => exact fun depth x y hlast hfewer => h.moved hbehind hlast .nil hfewer
  | @cons t u ts us htu hrest ih =>
    intro depth x y hlast hfewer
    rw [List.length_cons] at hfewer
    have hshort : ts.length < n := by omega
    simp only [Cursor.skipBody.loop, (M.alike t u htu).kind]
    split
    · exact ih _ _ _ (.some htu) hshort
    · split
      · exact h.moved hbehind (.some htu) hrest hshort
      · exact ih _ _ _ (.some htu) hshort
    · exact ih _ _ _ (.some htu) hshort

theorem places_skipBody (h : M.Places n c d) (hbehind : M.behind = []) :
    M.Places n c.skipBody d.skipBody := by
  obtain ⟨us, hd, hus⟩ := h.rest
  rw [hbehind, List.append_nil] at hd
  rw [Cursor.skipBody, Cursor.skipBody, hd]
  exact places_skipBody_loop h hbehind hus 0 _ _ h.last h.fewer

theorem places_past (h : M.Places n c d) (hbehind : M.behind = []) {k : Kind} (hk : k ≠ .eof) :
    M.Places n (c.past k) (d.past k) := by
  have hkind : d.kind = c.kind := (M.alike _ _ (h.current fun _ => hbehind)).kind
  unfold Cursor.past
  rw [hkind]
  split
  · next heq => exact (h.advance fun he => hk (heq.symm.trans he)).mono (Nat.sub_le n 1)
  · exact h

theorem endedBy_eq (h : M.Places n c d) (hbehind : M.behind = []) (kinds : List Kind)
    (start : Nat) : d.endedBy kinds start = c.endedBy kinds start := by
  have hlength := h.length_eq hbehind
  rcases h.last_cases with ⟨hc, hd⟩ | ⟨t, u, hc, hd, htu⟩
  · simp only [Cursor.endedBy, hc, hd, Option.any_none, hlength]
  · simp only [Cursor.endedBy, hc, hd, Option.any_some, hlength, (M.alike t u htu).kind]

theorem skipsAlike_endStatement : M.SkipsAlike Cursor.endStatement Cursor.endStatement := by
  intro hbehind n start c d h
  have hhalt : ∀ n c d, M.Places n c d →
      Cursor.haltsStatement start d = Cursor.haltsStatement start c := by
    intro n c d h
    have hlength := h.length_eq hbehind
    have hkind : d.kind = c.kind := (M.alike _ _ (h.current fun _ => hbehind)).kind
    simp only [Cursor.haltsStatement, hlength, hkind, h.atFreshStart,
      h.atLineStart fun _ => hbehind]
  unfold Cursor.endStatement
  rw [endedBy_eq h hbehind]
  split
  · exact h
  · exact places_past (places_skipTo hbehind hhalt n c d h) hbehind (by decide)

theorem skipsAlike_endMember : M.SkipsAlike Cursor.endMember Cursor.endMember := by
  intro hbehind n start c d h
  have hkind : ∀ n c d, M.Places n c d → d.kind = c.kind :=
    fun _ _ _ h => (M.alike _ _ (h.current fun _ => hbehind)).kind
  have hhalt : ∀ n c d, M.Places n c d →
      Cursor.haltsMember start d = Cursor.haltsMember start c := by
    intro n c d h
    have hlength := h.length_eq hbehind
    simp only [Cursor.haltsMember, hlength, hkind n c d h]
  unfold Cursor.endMember
  rw [endedBy_eq h hbehind]
  split
  · exact h
  · have hskip := places_skipTo hbehind hhalt n c d h
    dsimp only
    rw [hkind n _ _ hskip]
    split
    · exact places_skipBody hskip hbehind
    · exact places_past hskip hbehind (by decide)

theorem skipsAlike_endClass : M.SkipsAlike Cursor.endClass Cursor.endClass := by
  intro hbehind n start c d h
  apply places_skipTo hbehind _ n c d h
  intro n c d h
  have hlength := h.length_eq hbehind
  simp only [hlength, h.startsClass]

/-- A construct with its recovery. Where more tokens are ahead in the second run the first does
not complain, so that there is nothing to recover from. -/
theorem mirrors_recovering {skip : Nat → Cursor → Cursor}
    {skip' : Nat → Cursor ρ → Cursor ρ} (hskip : M.SkipsAlike skip skip')
    {item : Parse .short α} {item' : Parse ρ α} (hc : M.Places n c d) (hleft : c.rest ≠ [])
    (h : M.Mirrors n V item item' c d) :
    M.Mirrors n V (recovering skip item) (recovering skip' item') c d := by
  intro hclean
  rw [recovering_apply] at hclean ⊢
  rw [recovering_apply]
  have hitem := h hclean
  have hsettled : M.Places n (settle skip c.rest.length (item c).cursor).cursor
      (settle skip' d.rest.length (item' d).cursor).cursor := by
    simp only [settle, move, hitem.places.panicking]
    by_cases hbehind : M.behind = []
    · split
      · rw [hc.length_eq hbehind]
        exact (hskip hbehind n _ _ _ hitem.places).panic hbehind false
      · exact hitem.places
    · rcases hitem.places.ends with ⟨hnil, -⟩ | ⟨-, hcalm⟩
      · exact absurd hnil hbehind
      · rw [hcalm.quiet]
        exact hitem.places
  refine ⟨hitem.value, hitem.diagnostics, ?_⟩
  generalize (settle skip c.rest.length (item c).cursor).cursor = e at hsettled
  generalize (settle skip' d.rest.length (item' d).cursor).cursor = f at hsettled
  show M.Places n (nudge c.rest.length e).cursor (nudge d.rest.length f).cursor
  have hsame : f.rest.length = d.rest.length ↔ e.rest.length = c.rest.length := by
    rw [hsettled.length, hc.length]
    omega
  simp only [nudge, move, hsame]
  split
  · next hstuck =>
    have hne : e.rest ≠ [] := by
      rw [← List.length_pos_iff, hstuck, List.length_pos_iff]
      exact hleft
    exact (hsettled.advance_of_ne hne).mono (Nat.sub_le n 1)
  · exact hsettled

end Mirror

end JavaPrimer

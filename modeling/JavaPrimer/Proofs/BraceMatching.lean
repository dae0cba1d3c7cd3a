import JavaPrimer.Proofs.BetweenBraces

/-!
# Matching braces

Braces match as brackets do. In a list of tokens whose braces match, every brace that opens has the
one that closes it behind it, with a list in between whose braces match as well. A tree keeps the
braces of its tokens when each of its blocks and classes goes from a brace to the one that matches.

* `Balanced`, `balanced_iff` — lists of tokens whose braces match;
* `Balanced.of_braceless`, `Balanced.opened`, `Balanced.opens`, `Balanced.count_le` — taking such
  lists apart;
* `BlocksIn`, `MembersIn`, `ClassesIn`, `Root.KeepsBraces` — trees that keep the braces;
* `Shielded`, `ShieldedFrom` — lists of tokens in which recovery meets no brace by surprise.
-/

namespace JavaPrimer

/-! ### Lists whose braces match -/

/-- Lists of tokens whose braces match. -/
inductive Balanced : List Token → Prop
  | nil : Balanced []
  | plain {t ts} (h : t.kind.isBrace = false) (hts : Balanced ts) : Balanced (t :: ts)
  | braces {l mid r ts} (hl : l.kind = .lbrace) (hmid : Balanced mid) (hr : r.kind = .rbrace)
    (hts : Balanced ts) : Balanced (l :: mid ++ r :: ts)

theorem Balanced.of_braceless {us vs : List Token} (h : Balanced (us ++ vs)) (hus : Braceless us) :
    Balanced vs := by
  induction us with
  | nil => exact h
  | cons u us ih =>
    have hu := hus u List.mem_cons_self
    apply ih _ fun t ht => hus t (List.mem_cons_of_mem u ht)
    generalize hall : u :: us ++ vs = ts at h
    cases h with
    | nil => cases hall
    | plain _ hts =>
      cases hall
      exact hts
    | braces hl _ _ _ =>
      obtain ⟨rfl, -⟩ := List.cons.inj hall
      rw [hl] at hu
      cases hu

/-- No brace is closed that has not been opened. -/
theorem Balanced.head_ne {t : Token} {ts : List Token} (h : Balanced (t :: ts)) :
    t.kind ≠ .rbrace := by
  intro ht
  generalize hall : t :: ts = us at h
  cases h with
  | nil => cases hall
  | plain hu _ =>
    cases hall
    rw [ht] at hu
    cases hu
  | braces hl _ _ _ =>
    cases hall
    rw [ht] at hl
    cases hl

/-- A brace that opens such a list is closed in it. -/
theorem Balanced.opened {l : Token} {ts : List Token} (h : Balanced (l :: ts))
    (hl : l.kind = .lbrace) : ∃ mid r after, ts = mid ++ r :: after ∧ r.kind = .rbrace
      ∧ Balanced mid ∧ Balanced after := by
  generalize hall : l :: ts = us at h
  cases h with
  | nil => cases hall
  | plain hu _ =>
    cases hall
    rw [hl] at hu
    cases hu
  | braces _ hmid hr hts =>
    cases hall
    exact ⟨_, _, _, rfl, hr, hmid, hts⟩

/-- A brace that opens anywhere in such a list is closed behind it. -/
theorem Balanced.opens {ts : List Token} (h : Balanced ts) : ∀ {us vs l}, ts = us ++ l :: vs →
    l.kind = .lbrace → ∃ mid r after, vs = mid ++ r :: after ∧ r.kind = .rbrace ∧ Balanced mid := by
  induction h with
  | nil => exact fun hall _ => absurd hall (by simp)
  | plain hu hts ih =>
    intro us vs l hall hl
    cases us with
    | nil =>
      cases hall
      rw [hl] at hu
      cases hu
    | cons u us =>
      cases hall
      exact ih rfl hl
  | @braces k mid r ts hk hmid hr hts ihmid ihts =>
    intro us vs l hall hl
    cases us with
    | nil =>
      cases hall
      exact ⟨mid, r, ts, rfl, hr, hmid⟩
    | cons u us =>
      have htail : mid ++ r :: ts = us ++ l :: vs := (List.cons.inj hall).2
      -- the brace stands inside the pair, closes it, or stands behind it
      rcases List.append_eq_append_iff.1 htail with ⟨ws, hus, hrest⟩ | ⟨ws, hmid', hrest⟩
      · cases ws with
        | nil =>
          cases hrest
          rw [hl] at hr
          cases hr
        | cons w ws =>
          cases hrest
          exact ihts rfl hl
      · cases ws with
        | nil =>
          cases hrest
          rw [hl] at hr
          cases hr
        | cons w ws =>
          cases hrest
          obtain ⟨m, q, after, rfl, hq, hm⟩ := ihmid hmid' hl
          exact ⟨m, q, after ++ r :: ts, by simp, hq, hm⟩

/-- Whether the braces of a list match, where `depth` of them are open before it. -/
def closesAll : Nat → List Token → Bool
  | depth, [] => depth == 0
  | depth, t :: ts => match t.kind with
    | .lbrace => closesAll (depth + 1) ts
    | .rbrace => depth != 0 && closesAll (depth - 1) ts
    | _ => closesAll depth ts

theorem closesAll_plain {t : Token} (ht : t.kind.isBrace = false) (depth : Nat) (ts : List Token) :
    closesAll depth (t :: ts) = closesAll depth ts := by
  rw [closesAll]
  split
  · next hk => exact absurd hk (Kind.ne_lbrace ht)
  · next hk => exact absurd hk (Kind.ne_rbrace ht)
  · rfl

theorem Balanced.closesAll {ts : List Token} (h : Balanced ts) : ∀ depth after,
    closesAll depth (ts ++ after) = JavaPrimer.closesAll depth after := by
  induction h with
  | nil => exact fun _ _ => rfl
  | plain ht _ ih =>
    intro depth after
    rw [List.cons_append, closesAll_plain ht, ih]
  | braces hl _ hr _ ihmid ihts =>
    intro depth after
    rw [List.append_assoc, List.cons_append, List.cons_append, JavaPrimer.closesAll, hl]
    dsimp only
    rw [ihmid, JavaPrimer.closesAll, hr]
    simp only [Nat.add_sub_cancel, ihts]
    simp

/-- With some braces open, the first of them is closed somewhere, and the others behind it. -/
theorem balanced_of_closesAll : ∀ {ts depth}, closesAll depth ts = true →
    (depth = 0 → Balanced ts) ∧ ∀ d, depth = d + 1 → ∃ mid r after, ts = mid ++ r :: after
      ∧ r.kind = .rbrace ∧ Balanced mid ∧ closesAll d after = true := by
  intro ts
  induction hk : ts.length using Nat.strongRecOn generalizing ts with
  | ind k ih =>
    intro depth h
    cases ts with
    | nil =>
      have hdepth : depth = 0 := by simpa [closesAll] using h
      exact ⟨fun _ => .nil, fun d hd => by omega⟩
    | cons t ts =>
      rw [List.length_cons] at hk
      by_cases hl : t.kind = .lbrace
      · rw [closesAll, hl] at h
        obtain ⟨-, hopen⟩ := ih ts.length (by omega) rfl h
        obtain ⟨mid, r, after, rfl, hr, hmid, hrest⟩ := hopen depth rfl
        rw [List.length_append, List.length_cons] at hk
        obtain ⟨hzero, hmore⟩ := ih after.length (by omega) rfl hrest
        refine ⟨fun hd => .braces hl hmid hr (hzero hd), fun d hd => ?_⟩
        obtain ⟨mid', r', after', rfl, hr', hmid', hrest'⟩ := hmore d hd
        exact ⟨t :: mid ++ r :: mid', r', after', by simp, hr', .braces hl hmid hr hmid', hrest'⟩
      by_cases hr : t.kind = .rbrace
      · rw [closesAll, hr] at h
        obtain ⟨hdepth, hrest⟩ := Bool.and_eq_true_iff.1 h
        refine ⟨fun hd => by simp [hd] at hdepth, fun d hd => ?_⟩
        rw [hd, Nat.add_sub_cancel] at hrest
        exact ⟨[], t, ts, rfl, hr, .nil, hrest⟩
      · have ht := Kind.isBrace_of_ne hl hr
        rw [closesAll_plain ht] at h
        obtain ⟨hzero, hmore⟩ := ih ts.length (by omega) rfl h
        refine ⟨fun hd => .plain ht (hzero hd), fun d hd => ?_⟩
        obtain ⟨mid, r, after, rfl, hr, hmid, hrest⟩ := hmore d hd
        exact ⟨t :: mid, r, after, rfl, hr, .plain ht hmid, hrest⟩

theorem balanced_iff {ts : List Token} : Balanced ts ↔ closesAll 0 ts = true := by
  constructor
  · intro h
    have hall := h.closesAll 0 []
    rw [List.append_nil] at hall
    rw [hall]
    rfl
  · exact fun h => (balanced_of_closesAll h).1 rfl

instance (ts : List Token) : Decidable (Balanced ts) := decidable_of_iff _ balanced_iff.symm

/-- How many tokens of a kind there are. -/
def countKind (k : Kind) (ts : List Token) : Nat := ts.countP (·.kind = k)

@[simp] theorem countKind_nil (k : Kind) : countKind k [] = 0 := rfl

theorem countKind_append (k : Kind) (us vs : List Token) :
    countKind k (us ++ vs) = countKind k us + countKind k vs := List.countP_append

theorem countKind_cons (k : Kind) (t : Token) (ts : List Token) :
    countKind k (t :: ts) = countKind k ts + if t.kind = k then 1 else 0 := by
  simp [countKind, List.countP_cons]

/-- Up to any place at least as many braces open as close, and in all as many. -/
theorem Balanced.count_le {ts : List Token} (h : Balanced ts) :
    countKind .rbrace ts = countKind .lbrace ts
      ∧ ∀ {us vs}, ts = us ++ vs → countKind .rbrace us ≤ countKind .lbrace us := by
  induction h with
  | nil =>
    refine ⟨rfl, fun {us vs} hall => ?_⟩
    obtain ⟨rfl, -⟩ := List.append_eq_nil_iff.1 hall.symm
    exact Nat.le_refl _
  | @plain t ts ht hts ih =>
    obtain ⟨hsame, hfront⟩ := ih
    have hl := Kind.ne_lbrace ht
    have hr := Kind.ne_rbrace ht
    constructor
    · rw [countKind_cons, countKind_cons, hsame, if_neg hr, if_neg hl]
    · intro us vs hall
      cases us with
      | nil => exact Nat.le_refl _
      | cons u us =>
        cases hall
        rw [countKind_cons, countKind_cons, if_neg hr, if_neg hl]
        exact hfront rfl
  | @braces l mid r ts hl hmid hr hts ihmid ihts =>
    have hopen : ∀ us, countKind .rbrace (l :: us) = countKind .rbrace us
        ∧ countKind .lbrace (l :: us) = countKind .lbrace us + 1 := by
      intro us
      simp [countKind_cons, hl]
    have hclose : ∀ us, countKind .rbrace (mid ++ r :: us) = countKind .rbrace us
          + countKind .lbrace mid + 1
        ∧ countKind .lbrace (mid ++ r :: us) = countKind .lbrace us + countKind .lbrace mid := by
      intro us
      rw [countKind_append, countKind_append, ihmid.1]
      simp [countKind_cons, hr]
      omega
    constructor
    · have hin := hopen (mid ++ r :: ts)
      have hout := hclose ts
      have hsame := ihts.1
      rw [List.cons_append]
      omega
    · intro us vs hall
      cases us with
      | nil => exact Nat.le_refl _
      | cons u us =>
        obtain ⟨rfl, htail⟩ : l = u ∧ mid ++ r :: ts = us ++ vs := List.cons.inj hall
        have hin := hopen us
        rcases List.append_eq_append_iff.1 htail with ⟨ws, hus, hrest⟩ | ⟨ws, hmid', hrest⟩
        · cases ws with
          | nil =>
            have hsame := ihmid.1
            rw [List.append_nil] at hus
            rw [hus] at hin ⊢
            omega
          | cons w ws =>
            cases hrest
            have hout := hclose ws
            have hfront := ihts.2 rfl
            rw [hus] at hin ⊢
            omega
        · have hfront := ihmid.2 hmid'
          omega

/-! ### Trees that keep the braces -/

/-- From a token to a later one. -/
def Token.spanTo (l r : Token) : Span :=
  if r.span.startsBefore l.span then l.span else l.span.through r.span

/-- Whether a statement is a block. -/
def Stmt.isBlock : Stmt → Bool
  | .block .. => true
  | _ => false

/-- Statements as they stand in a list of tokens: every pair of braces is that of a block, and
there are no other blocks. -/
inductive BlocksIn : List Token → List Stmt → Prop
  | nil : BlocksIn [] []
  | token {t ts xs} (ht : t.kind.isBrace = false) (h : BlocksIn ts xs) : BlocksIn (t :: ts) xs
  | stmt {ts x xs} (hx : x.isBlock = false) (h : BlocksIn ts xs) : BlocksIn ts (x :: xs)
  | block {l mid r stmts ts xs} (hl : l.kind = .lbrace) (hmid : BlocksIn mid stmts)
    (hr : r.kind = .rbrace) (h : BlocksIn ts xs) :
    BlocksIn (l :: mid ++ r :: ts) (.block (l.spanTo r) stmts :: xs)

/-- Whether a member has no body. -/
def Member.isBodiless : Member → Bool
  | .main _ _ _ (some _) => false
  | _ => true

/-- Members as they stand in a list of tokens: every body goes from a brace to the one that
matches it; a pair of braces that belongs to no body is passed over as a whole. -/
inductive MembersIn : List Token → List Member → Prop
  | nil : MembersIn [] []
  | token {t ts xs} (ht : t.kind.isBrace = false) (h : MembersIn ts xs) : MembersIn (t :: ts) xs
  | braces {l mid r ts xs} (hl : l.kind = .lbrace) (hmid : Balanced mid) (hr : r.kind = .rbrace)
    (h : MembersIn ts xs) : MembersIn (l :: mid ++ r :: ts) xs
  | member {ts x xs} (hx : x.isBodiless = true) (h : MembersIn ts xs) : MembersIn ts (x :: xs)
  | main {l mid r stmts s name param ts xs} (hl : l.kind = .lbrace) (hmid : BlocksIn mid stmts)
    (hr : r.kind = .rbrace) (h : MembersIn ts xs) :
    MembersIn (l :: mid ++ r :: ts) (.main s name param (some ⟨l.spanTo r, stmts⟩) :: xs)

/-- Classes as they stand in a list of tokens: a class that has consumed its brace ends at the one
that matches it; one that has not goes over tokens without braces. -/
inductive ClassesIn : List Token → List ClassDecl → Prop
  | nil {ts} : ClassesIn ts []
  | token {t ts xs} (h : ClassesIn ts xs) : ClassesIn (t :: ts) xs
  | headless {head p q name ts xs} (hhead : Braceless head) (hp : head.head? = some p)
    (hq : head.getLast? = some q) (h : ClassesIn ts xs) :
    ClassesIn (head ++ ts) (⟨p.spanTo q, name, []⟩ :: xs)
  | class {head p name l mid r members ts xs} (hhead : Braceless head) (hp : head.head? = some p)
    (hl : l.kind = .lbrace) (hmid : MembersIn mid members) (hr : r.kind = .rbrace)
    (h : ClassesIn ts xs) :
    ClassesIn (head ++ l :: mid ++ r :: ts) (⟨p.spanTo r, name, members⟩ :: xs)

/-- A tree that keeps the braces of a list of tokens. -/
def Root.KeepsBraces (ts : List Token) : Root → Prop
  | .program _ classes => ClassesIn ts classes
  | .statements _ stmts => BlocksIn ts stmts

theorem BlocksIn.braceless {us ts : List Token} {xs : List Stmt} (hus : Braceless us)
    (h : BlocksIn ts xs) : BlocksIn (us ++ ts) xs := by
  induction us with
  | nil => exact h
  | cons u us ih =>
    exact .token (hus u List.mem_cons_self) (ih fun t ht => hus t (List.mem_cons_of_mem u ht))

theorem MembersIn.braceless {us ts : List Token} {xs : List Member} (hus : Braceless us)
    (h : MembersIn ts xs) : MembersIn (us ++ ts) xs := by
  induction us with
  | nil => exact h
  | cons u us ih =>
    exact .token (hus u List.mem_cons_self) (ih fun t ht => hus t (List.mem_cons_of_mem u ht))

/-- The pairs of braces of blocks are pairs that match. -/
theorem BlocksIn.balanced {ts : List Token} {xs : List Stmt} (h : BlocksIn ts xs) :
    Balanced ts := by
  induction h with
  | nil => exact .nil
  | token ht _ ih => exact .plain ht ih
  | stmt _ _ ih => exact ih
  | block hl _ hr _ ihmid ih => exact .braces hl ihmid hr ih

theorem MembersIn.balanced {ts : List Token} {xs : List Member} (h : MembersIn ts xs) :
    Balanced ts := by
  induction h with
  | nil => exact .nil
  | token ht _ ih => exact .plain ht ih
  | braces hl hmid hr _ ih => exact .braces hl hmid hr ih
  | member _ _ ih => exact ih
  | main hl hmid hr _ ih => exact .braces hl hmid.balanced hr ih

theorem ClassesIn.append (us : List Token) {ts : List Token} {xs : List ClassDecl}
    (h : ClassesIn ts xs) : ClassesIn (us ++ ts) xs := by
  induction us with
  | nil => exact h
  | cons u us ih => exact .token ih

/-! ### Braces that recovery does not meet by surprise -/

/-- A token behind which a broken statement does not go on to a brace: it ends a statement, opens
or closes a block, or stands on an earlier line. -/
def Token.Shields (l t : Token) : Prop :=
  t.kind = .semi ∨ t.kind.isBrace = true ∨ t.span.stop.line < l.span.start.line

/-- Every brace that opens in a list is shielded by the token before it; `last` is the one before
the list. -/
def Shielded (last : Option Token) (ts : List Token) : Prop :=
  ∀ us l vs, ts = us ++ l :: vs → l.kind = .lbrace → ∀ t ∈ us.getLast?.or last, l.Shields t

/-- Every brace that opens inside at least `depth` others is shielded by the token before it. -/
def ShieldedFrom (depth : Nat) (ts : List Token) : Prop :=
  ∀ i : Fin ts.length, ts[i].kind = .lbrace →
    countKind .rbrace (ts.take i) + depth ≤ countKind .lbrace (ts.take i) →
      ∀ t ∈ (ts.take i).getLast?, ts[i].Shields t

instance (l t : Token) : Decidable (l.Shields t) := inferInstanceAs (Decidable (_ ∨ _ ∨ _))

instance (depth : Nat) (ts : List Token) : Decidable (ShieldedFrom depth ts) :=
  inferInstanceAs (Decidable (∀ _ : Fin ts.length, _))

theorem ShieldedFrom.split {depth : Nat} {us vs : List Token} {l : Token}
    (h : ShieldedFrom depth (us ++ l :: vs)) (hl : l.kind = .lbrace)
    (hdepth : countKind .rbrace us + depth ≤ countKind .lbrace us) :
    ∀ t ∈ us.getLast?, l.Shields t := by
  have hi : us.length < (us ++ l :: vs).length := by simp
  have hshield := h ⟨us.length, hi⟩
  simp only [Fin.getElem_fin, List.getElem_append_right (Nat.le_refl us.length), Nat.sub_self,
    List.getElem_cons_zero, List.take_left] at hshield
  exact hshield hl hdepth

theorem Shielded.behind {last : Option Token} {us vs : List Token}
    (h : Shielded last (us ++ vs)) : Shielded (us.getLast?.or last) vs := by
  intro ws l xs hall hl t ht
  apply h (us ++ ws) l xs (by rw [hall, List.append_assoc]) hl
  rwa [List.getLast?_append, Option.or_assoc]

theorem Shielded.front {last : Option Token} {us vs : List Token}
    (h : Shielded last (us ++ vs)) : Shielded last us := by
  intro ws l xs hall hl
  exact h ws l (xs ++ vs) (by rw [hall]; simp) hl

/-- Deep enough inside, a list whose braces match is shielded. -/
theorem ShieldedFrom.inside {depth : Nat} {before mid after : List Token}
    (h : ShieldedFrom depth (before ++ (mid ++ after)))
    (hdepth : countKind .rbrace before + depth ≤ countKind .lbrace before) (hmid : Balanced mid) :
    Shielded before.getLast? mid := by
  intro us l vs hall hl t ht
  have hcount := hmid.count_le.2 hall
  have hsplit : before ++ (mid ++ after) = (before ++ us) ++ l :: (vs ++ after) := by
    rw [hall]
    simp
  rw [hsplit] at h
  apply h.split hl
  · rw [countKind_append, countKind_append]
    omega
  · rwa [List.getLast?_append]

end JavaPrimer

import JavaPrimer.Proofs.Scoping

/-!
# More names known

The names that need no declaration are asked for in one place: at a name that heads an expression,
and only when no scope in force declares it. So with more names known everything is found as before
and in the same order, but for the names that are known now. A name that is assigned to has to be
declared even so.

A finding does not tell how its name was mentioned, and an undeclared name may head an expression or
be assigned to. So the findings are taken together with the mentions that they are made at.

* `Notice`, `Root.notices` — the findings of a tree with their mentions;
* `Root.map_finding_notices` — the findings alone;
* `Notice.IsSilencedBy` — an undeclared use of a name that is known now;
* `finding?_append`, `Root.notices_append` — one mention, and a whole tree;
* `checkScopes_append` — what is reported with more names known.
-/

namespace JavaPrimer

/-! ### Findings at mentions -/

/-- A finding and the mention that it is made at. -/
structure Notice where
  mention : Mention
  finding : Finding
deriving DecidableEq

/-- The diagnostic of a notice. -/
def Notice.diagnostic (n : Notice) : Diagnostic := n.finding.diagnostic

/-- What is found at mentions behind others, in order. -/
def noticesFrom (known : List Text) : List Mention → List Mention → List Notice
  | _, [] => []
  | before, m :: rest =>
    ((m.finding? known before).map (Notice.mk m)).toList ++ noticesFrom known (before ++ [m]) rest

/-- What is found at the mentions of a tree, in order. -/
def Root.notices (known : List Text) (root : Root) : List Notice :=
  noticesFrom known [] root.mentions

variable {known extra : List Text} {before : List Mention}

theorem map_finding_noticesFrom (ms : List Mention) :
    (noticesFrom known before ms).map Notice.finding = report known before ms := by
  induction ms generalizing before with
  | nil => rfl
  | cons m ms ih =>
    rw [noticesFrom, report, List.map_append, ih]
    cases m.finding? known before <;> rfl

/-- The notices of a tree are its findings. -/
theorem Root.map_finding_notices (root : Root) :
    (root.notices known).map Notice.finding = root.findings known := by
  rw [notices, map_finding_noticesFrom, root.report_mentions]

theorem Root.map_diagnostic_notices (names : List Text) (root : Root) :
    (root.notices (builtins ++ names)).map Notice.diagnostic = checkScopes names root := by
  rw [checkScopes, ← root.map_finding_notices, List.map_map]
  rfl

/-- A notice is made at one of the mentions, and says what is wrong there. -/
theorem wrong_of_mem_noticesFrom {ms : List Mention} {n : Notice}
    (h : n ∈ noticesFrom known before ms) : ∃ earlier later, ms = earlier ++ n.mention :: later
      ∧ Wrong known (before ++ earlier) n.mention n.finding := by
  induction ms generalizing before with
  | nil => cases h
  | cons m ms ih =>
    rcases List.mem_append.1 h with h | h
    · obtain ⟨f, hf, rfl⟩ := Option.map_eq_some_iff.1 (Option.mem_toList.1 h)
      refine ⟨[], ms, rfl, ?_⟩
      rw [List.append_nil]
      exact finding?_eq_some_iff.1 hf
    · obtain ⟨earlier, later, rfl, hwrong⟩ := ih h
      refine ⟨m :: earlier, later, rfl, ?_⟩
      rwa [List.append_assoc, List.singleton_append] at hwrong

/-! ### Silenced uses -/

/-- The notice is that a name heads an expression without a declaration, and the name is one of
those that are known now. -/
def Notice.IsSilencedBy (extra : List Text) (n : Notice) : Prop :=
  n.mention.role = .used ∧ n.finding = .undeclared n.mention.name ∧ n.mention.name.name ∈ extra

instance (extra : List Text) (n : Notice) : Decidable (n.IsSilencedBy extra) :=
  inferInstanceAs (Decidable (_ ∧ _ ∧ _))

/-- Elsewhere than at the head of an expression it does not matter what is known. -/
theorem finding?_append_of_ne {m : Mention} (hrole : m.role ≠ .used) :
    m.finding? (known ++ extra) before = m.finding? known before := by
  unfold Mention.finding?
  cases h : m.role with
  | used => exact absurd h hrole
  | _ => rfl

/-- At the head of an expression, names that are known besides are asked for last. -/
theorem finding?_append_used {m : Mention} (hrole : m.role = .used) :
    m.finding? (known ++ extra) before
      = if m.name.name ∈ extra then none else m.finding? known before := by
  simp only [Mention.finding?, hrole, List.contains_iff_mem, List.mem_append, Bool.or_eq_true]
  by_cases hextra : m.name.name ∈ extra
  · rw [if_pos hextra, if_pos (.inr (.inr hextra))]
  · simp only [hextra, or_false, if_false]

/-- What is found at a head that is not known is that it is undeclared. -/
theorem eq_undeclared_of_used {m : Mention} {f : Finding} (hrole : m.role = .used)
    (h : m.finding? known before = some f) : f = .undeclared m.name := by
  simp only [Mention.finding?, hrole] at h
  split at h
  · cases h
  · exact (Option.some.inj h).symm

/-- With more names known a mention gives its notice as before, unless that is silenced. -/
theorem notice_append (m : Mention) :
    ((m.finding? (known ++ extra) before).map (Notice.mk m)).toList
      = ((m.finding? known before).map (Notice.mk m)).toList.filter
          fun n => ¬ n.IsSilencedBy extra := by
  by_cases hrole : m.role = .used
  · rw [finding?_append_used hrole]
    cases hfound : m.finding? known before with
    | none => simp
    | some f =>
      obtain rfl := eq_undeclared_of_used hrole hfound
      by_cases hextra : m.name.name ∈ extra
      · simp [hextra, Notice.IsSilencedBy, hrole]
      · simp [hextra, Notice.IsSilencedBy]
  · rw [finding?_append_of_ne hrole, List.filter_eq_self.2]
    intro n hn
    obtain ⟨f, -, rfl⟩ := Option.map_eq_some_iff.1 (Option.mem_toList.1 hn)
    exact decide_eq_true fun hsilenced => hrole hsilenced.1

theorem noticesFrom_append (ms : List Mention) :
    noticesFrom (known ++ extra) before ms
      = (noticesFrom known before ms).filter fun n => ¬ n.IsSilencedBy extra := by
  induction ms generalizing before with
  | nil => rfl
  | cons m ms ih => rw [noticesFrom, noticesFrom, List.filter_append, notice_append, ih]

/-- With more names known a tree gives the same notices in the same order, but for those
silenced. -/
theorem Root.notices_append (root : Root) : root.notices (known ++ extra)
    = (root.notices known).filter fun n => ¬ n.IsSilencedBy extra :=
  noticesFrom_append root.mentions

/-! ### Diagnostics -/

/-- A choice among the notices that keeps none of the silenced ones is the same with more names
known. -/
theorem Root.filter_notices_append (root : Root) {p : Notice → Bool}
    (hp : ∀ n, p n = true → ¬ n.IsSilencedBy extra) :
    (root.notices (known ++ extra)).filter p = (root.notices known).filter p := by
  rw [notices_append, List.filter_filter]
  refine List.filter_congr fun n _ => ?_
  cases hpn : p n with
  | false => rfl
  | true => exact (Bool.true_and _).trans (decide_eq_true (hp n hpn))

/-- More names known only silence undeclared uses. Every diagnostic belongs to a notice at a mention
of the tree where that is wrong. With more names known the diagnostics are the same in the same
order, but for those at a name that heads an expression, has no declaration and is known now. In
particular nothing changes about names declared twice, about writes to constants, or about what is
found on the left of an assignment. -/
theorem checkScopes_append (names extra : List Text) (root : Root) :
    checkScopes names root = (root.notices (builtins ++ names)).map Notice.diagnostic
      ∧ (∀ n ∈ root.notices (builtins ++ names), ∃ earlier later,
          root.mentions = earlier ++ n.mention :: later
            ∧ Wrong (builtins ++ names) earlier n.mention n.finding)
      ∧ checkScopes (names ++ extra) root
        = ((root.notices (builtins ++ names)).filter
            fun n => ¬ n.IsSilencedBy extra).map Notice.diagnostic
      ∧ (checkScopes (names ++ extra) root).filter (·.category ≠ .undeclaredVariable)
        = (checkScopes names root).filter (·.category ≠ .undeclaredVariable)
      ∧ (root.notices (builtins ++ (names ++ extra))).filter (·.mention.role = .assigned)
        = (root.notices (builtins ++ names)).filter (·.mention.role = .assigned) := by
  have hcategory : ∀ n : Notice, n.IsSilencedBy extra →
      n.diagnostic.category = .undeclaredVariable := by
    rintro n ⟨-, hfinding, -⟩
    rw [Notice.diagnostic, hfinding]
    rfl
  refine ⟨(root.map_diagnostic_notices names).symm, fun n hn => wrong_of_mem_noticesFrom hn,
    ?_, ?_, ?_⟩
  · rw [← root.map_diagnostic_notices, ← List.append_assoc, root.notices_append]
  · simp only [← root.map_diagnostic_notices, ← List.append_assoc, List.filter_map]
    rw [root.filter_notices_append]
    intro n hn hsilenced
    exact absurd (hcategory n hsilenced) (of_decide_eq_true hn)
  · rw [← List.append_assoc]
    refine root.filter_notices_append fun n hn hsilenced => ?_
    have hused := hsilenced.1
    rw [of_decide_eq_true hn] at hused
    cases hused

/-- In `x = x;` a known `x` may be used, but not assigned to. -/
example (s : Span) : let x : Ident := ⟨"x", s⟩
    checkScopes ["x"] (.statements s [.expr s (.name s x []) .set s (.name s x [])])
      = [(Finding.undeclared x).diagnostic] := rfl

end JavaPrimer

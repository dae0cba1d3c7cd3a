import JavaPrimer.Analysis
import JavaPrimer.Proofs.MirroredTree
import JavaPrimer.Proofs.TokenLists

/-!
# Behind the end of input

A parser runs over a whole list of tokens, and nothing in the list keeps it from going on past an
end of input in the middle. It does not: over a whole list every construct does what it does when
the tokens behind the first end of input are cut off, and leaves those where they are. What is
true of all runs up to an end of input is therefore true of all runs over a list.

* `Cursor.short`, `Cursor.holding` — a place with what is behind its end of input cut off, and with
  something behind it;
* `Mirror.holding` — two runs over the same tokens, the first of them cut off;
* `Parse.StopsShort` — a step that does the same in both;
* `Parse.stopsShort_expression`, `Parse.stopsShort_statement` — that all constructs do;
* `Mode.parser`, `parse_short` — the outcome for a list is that of the run cut off;
* `takes_of_parseStatements`, `takes_of_parseProgram` — what a list without syntax errors is read
  as.
-/

namespace JavaPrimer

variable {ρ : Reach}

namespace Cursor

/-- A place whose end of input is one. -/
def Ended (c : Cursor ρ) : Prop := c.stop.kind = .eof

/-- The same place in the list that ends at the end of input. -/
def short (c : Cursor ρ) : Cursor := ⟨c.last, c.rest, c.stop, (), c.panicking⟩

/-- The same place in a list that goes on behind the end of input. -/
def holding (c : Cursor) (k : ρ.Held) : Cursor ρ := ⟨c.last, c.rest, c.stop, k, c.panicking⟩

theorem current_short (c : Cursor ρ) : c.short.current = c.current := by
  cases hrest : c.rest with
  | nil => rw [current_nil hrest, current_nil (c := c.short) hrest, short]
  | cons t ts => rw [current_cons hrest, current_cons (c := c.short) hrest]

theorem advance_short {c : Cursor ρ} (h : c.rest ≠ []) :
    c.advance = c.short.advance.holding c.behind := by
  obtain ⟨t, ts, hts⟩ := List.exists_cons_of_ne_nil h
  rw [advance_cons hts, advance_cons (c := c.short) hts]
  rfl

theorem before_short (last : Option Token) (panicking : Bool) (t : Token) (ts : List Token) :
    (before last panicking t ts : Cursor ρ).short = before last panicking t ts := by
  induction ts generalizing t with
  | nil => rfl
  | cons u us ih =>
    by_cases hk : t.kind = .eof
    · rw [before_end hk, before_end hk]
      rfl
    · rw [before_token hk, before_token hk, ← ih]
      rfl

theorem ofTokens_short_eq (tokens : List Token) :
    (ofTokens tokens : Cursor ρ).short = ofTokens tokens :=
  before_short none false _ _

end Cursor

/-- An outcome in a list that goes on behind the end of input. -/
def Step.holding {α : Type} (s : Step .short α) (k : ρ.Held) : Step ρ α :=
  ⟨s.value, s.diagnostics, s.cursor.holding k⟩

@[simp] theorem Step.value_holding {α : Type} (s : Step .short α) (k : ρ.Held) :
    (s.holding k).value = s.value := rfl

@[simp] theorem Step.diagnostics_holding {α : Type} (s : Step .short α) (k : ρ.Held) :
    (s.holding k).diagnostics = s.diagnostics := rfl

@[simp] theorem Step.cursor_holding {α : Type} (s : Step .short α) (k : ρ.Held) :
    (s.holding k).cursor = s.cursor.holding k := rfl

/-! ### Two runs over the same tokens -/

namespace Mirror

/-- Two runs over the same tokens. The second has more of them before its end of input, and some
behind it. -/
def followed (behind : List Token) (h : ∀ t ∈ behind.head?, t.kind = .rbrace) (k : ρ.Held) :
    Mirror ρ where
  token := Eq
  alike := fun t _ htu => htu ▸ Token.Alike.refl t
  behind := behind
  closes := h
  held := k

theorem places_followed {behind : List Token} {h : ∀ t ∈ behind.head?, t.kind = .rbrace} {n : Nat}
    {c : Cursor} {d : Cursor ρ} (hlast : d.last = c.last) (hpanicking : d.panicking = c.panicking)
    (hrest : d.rest = c.rest ++ behind) (hc : c.Ended)
    (hends : behind = [] ∧ c.stop = d.stop ∨ behind ≠ [] ∧ c.Calm) (hn : c.rest.length < n) :
    (followed behind h d.behind).Places n c d := by
  refine ⟨?_, hpanicking, ⟨c.rest, hrest, ?_⟩, hc, rfl, hends, hn⟩
  · rw [hlast]
    cases c.last with
    | none => exact .none
    | some t => exact .some rfl
  · exact List.forall₂_same.2 fun _ _ => rfl

theorem closes_nil : ∀ t ∈ ([] : List Token).head?, t.kind = .rbrace :=
  fun _ h => absurd h (Option.not_mem_none _)

/-- Two runs over the same tokens, with some behind the end of input of the second. -/
def holding (k : ρ.Held) : Mirror ρ := followed [] closes_nil k

theorem exact_holding (k : ρ.Held) : Token.Exact (holding k).token := fun _ _ htu => htu.symm

theorem places_holding {n : Nat} {c : Cursor} (k : ρ.Held) (hc : c.Ended) (hn : c.rest.length < n) :
    (holding k).Places n c (c.holding k) :=
  places_followed (d := c.holding k) rfl rfl (List.append_nil _).symm hc (.inl ⟨rfl, rfl⟩) hn

theorem eq_of_places {n : Nat} {k : ρ.Held} {c : Cursor} {d : Cursor ρ}
    (h : (holding k).Places n c d) : d = c.holding k := by
  obtain ⟨us, hd, hus⟩ := h.rest
  have hsame : c.rest = us := by
    have hall : List.Forall₂ Eq c.rest us := hus
    rwa [List.forall₂_eq_eq_eq] at hall
  have hrest : d.rest = c.rest := by
    rw [hd, hsame]
    exact List.append_nil us
  have hlast : d.last = c.last := by
    rcases h.last_cases with ⟨hc, hd⟩ | ⟨t, u, hc, hd, htu⟩
    · rw [hc, hd]
    · rw [hc, hd, exact_holding k _ _ htu]
  have hstop : d.stop = c.stop := by
    rcases h.ends with ⟨-, hstop⟩ | ⟨hne, -⟩
    · exact exact_holding k _ _ hstop
    · exact absurd rfl hne
  have hheld := h.held
  have hpanicking := h.panicking
  cases d
  subst hlast hrest hstop hheld hpanicking
  rfl

/-- Outcomes over the same tokens that reflect each other are the same. -/
theorem eq_of_reflects {α : Type} {n : Nat} {k : ρ.Held} {V : α → α → Prop} {s : Step .short α}
    {t : Step ρ α} (h : (holding k).Reflects n V s t) (hV : ∀ a b, V a b → b = a) :
    t = s.holding k := by
  have hdiagnostics : t.diagnostics = s.diagnostics := by
    have hsame : List.Forall₂ Eq s.diagnostics t.diagnostics :=
      h.diagnostics.imp fun _ _ hde => (hde.exact (exact_holding k)).symm
    rw [List.forall₂_eq_eq_eq] at hsame
    exact hsame.symm
  have hvalue := hV _ _ h.value
  have hcursor := eq_of_places h.places
  cases t
  subst hvalue hdiagnostics hcursor
  rfl

/-- A step that is mirrored wherever fewer than `n` tokens are ahead may be replaced by one that
does the same there. -/
theorem Mirroring.congr {α : Type} {n : Nat} {k : ρ.Held} {V : α → α → Prop} {p : Parse .short α}
    {q q' : Parse ρ α} (h : (holding k).Mirroring n V p q)
    (hq : ∀ d : Cursor ρ, d.Ended → d.rest.length < n → q' d = q d) :
    (holding k).Mirroring n V p q' := by
  intro m hm c d hc
  have hlength := hc.length_eq rfl
  have hfewer := hc.fewer
  have hd : d.Ended := by
    rw [eq_of_places hc]
    exact hc.stop
  rw [Mirrors, hq d hd (by omega)]
  exact h m hm c d hc

/-- Steps that mirror each other over the same tokens do the same. -/
theorem Mirroring.eq_holding {α : Type} {n : Nat} {V : α → α → Prop} {p : Parse .short α}
    {q : Parse ρ α} {c : Cursor ρ} (h : (holding c.behind).Mirroring n V p q) (hc : c.Ended)
    (hn : c.rest.length < n) (hV : ∀ a b, V a b → b = a) :
    q c = (p c.short).holding c.behind := by
  have hplaces := places_holding c.behind hc (Nat.lt_succ_self c.short.rest.length)
  exact eq_of_reflects (h _ hn c.short c hplaces (.inl rfl)) hV

end Mirror

/-! ### Steps that stop short of the end of input -/

namespace Parse

variable {α : Type}

/-- A step over lists that go on behind their end of input, by which it does what another does
where they end there. -/
def StopsShort (q : Parse ρ α) (p : Parse .short α) : Prop :=
  ∀ c : Cursor, c.Ended → ∀ k : ρ.Held, q (c.holding k) = (p c).holding k

theorem StopsShort.at {q : Parse ρ α} {p : Parse .short α} (h : q.StopsShort p) {c : Cursor ρ}
    (hc : c.Ended) : q c = (p c.short).holding c.behind :=
  h c.short hc c.behind

theorem stopsShort_self (p : Parse .short α) : p.StopsShort p := fun _ _ _ => rfl

theorem stopsShort_of_mirrors {p : Parse .short α} {q : Parse ρ α} {V : ρ.Held → α → α → Prop}
    (h : ∀ k c d, (Mirror.holding k).Places (c.rest.length + 1) c d →
      (Mirror.holding k).Mirrors (c.rest.length + 1) (V k) p q c d)
    (hV : ∀ k a b, V k a b → b = a) : q.StopsShort p := by
  intro c hc k
  have hreflects := h k c (c.holding k) (Mirror.places_holding k hc (Nat.lt_succ_self _)) (.inl rfl)
  exact Mirror.eq_of_reflects hreflects (hV k)

/-- A step with an outcome that may be none. -/
theorem eq_of_rel {V : α → α → Prop} (hV : ∀ a b, V a b → b = a) (x y : Option α)
    (h : Option.Rel V x y) : y = x := by
  cases h with
  | none => rfl
  | some hab => rw [hV _ _ hab]

theorem eq_of_same (k : ρ.Held) (a b : α) (h : (Mirror.holding k).Same a b) : b = a :=
  h (Mirror.exact_holding k)

theorem stopsShort_expression : StopsShort (expression (ρ := ρ)) expression :=
  stopsShort_of_mirrors (fun _ _ _ hc => Mirror.mirrors_expression hc)
    fun k _ _ h => h.same (Mirror.exact_holding k)

theorem stopsShort_statement : StopsShort (statement (ρ := ρ)) statement :=
  stopsShort_of_mirrors (fun _ _ _ hc => Mirror.mirroring_statement _ (Nat.le_refl _) _ _ hc)
    fun k => eq_of_rel (eq_of_same k)

theorem stopsShort_modifier : StopsShort (modifier (ρ := ρ)) modifier :=
  stopsShort_of_mirrors (fun _ _ _ hc => Mirror.mirroring_modifier _ (Nat.le_refl _) _ _ hc)
    fun k => eq_of_rel fun _ _ h => (Mirror.exact_holding k _ _ h)

theorem stopsShort_member : StopsShort (member (ρ := ρ)) member :=
  stopsShort_of_mirrors (fun _ _ _ hc => Mirror.mirrors_member hc fun _ => rfl)
    fun k => eq_of_same k

theorem stopsShort_classOrSkip : StopsShort (classOrSkip (ρ := ρ)) classOrSkip :=
  stopsShort_of_mirrors (fun _ _ _ hc => Mirror.mirrors_classOrSkip rfl hc)
    fun k => eq_of_rel (eq_of_same k)

theorem stopsShort_statements : StopsShort (statements (ρ := ρ)) statements :=
  stopsShort_of_mirrors (fun _ _ _ hc => Mirror.mirrors_statements rfl hc) fun k => eq_of_same k

theorem stopsShort_program : StopsShort (program (ρ := ρ)) program :=
  stopsShort_of_mirrors (fun _ _ _ hc => Mirror.mirrors_program rfl hc) fun k => eq_of_same k

end Parse

/-! ### Whole lists -/

/-- The construct that a mode reads a list of tokens as. -/
def Mode.parser : Mode → Parse ρ Root
  | .full => Parse.program
  | .statements => Parse.statements

theorem Mode.stopsShort_parser (mode : Mode) : (mode.parser (ρ := ρ)).StopsShort mode.parser := by
  cases mode
  · exact Parse.stopsShort_program
  · exact Parse.stopsShort_statements

theorem Cursor.ended_ofTokens (tokens : List Token) : (ofTokens tokens : Cursor ρ).Ended :=
  kind_stop_ofTokens tokens

/-- A run over a whole list of tokens does what it does when the list is cut off at its first end of
input, and what is behind that stays where it is. -/
theorem Mode.parser_ofTokens (mode : Mode) (tokens : List Token) :
    mode.parser (.ofTokens tokens : Cursor ρ)
      = (mode.parser (.ofTokens tokens : Cursor)).holding
        (Cursor.ofTokens tokens : Cursor ρ).behind := by
  rw [← Cursor.ofTokens_short_eq (ρ := ρ)]
  exact mode.stopsShort_parser.at (Cursor.ended_ofTokens tokens)

/-- The outcome for a list of tokens is that of a run that is cut off at the first end of input. -/
theorem parse_short (mode : Mode) (tokens : List Token) :
    parse mode tokens = parseWith (mode.parser (ρ := .short)) tokens := by
  have hwhole : parse mode tokens = parseWith (mode.parser (ρ := .whole)) tokens := by
    cases mode <;> rfl
  rw [hwhole, parseWith, parseWith, mode.parser_ofTokens (ρ := .whole)]
  rfl

theorem parseProgram_short (tokens : List Token) :
    parseProgram tokens = parseWith (Parse.program (ρ := .short)) tokens :=
  parse_short .full tokens

theorem parseStatements_short (tokens : List Token) :
    parseStatements tokens = parseWith (Parse.statements (ρ := .short)) tokens :=
  parse_short .statements tokens

/-! ### Trees without syntax errors -/

/-- A tree of statements without syntax errors takes all tokens before the end. -/
theorem takes_of_parseStatements {tokens : List Token}
    (h : ∀ t ∈ tokens, t.unterminated = false) (hd : (parseStatements tokens).diagnostics = []) :
    (parseStatements tokens).root.Takes (tokens.takeWhile (·.kind ≠ .eof)) := by
  rw [parseStatements_short] at hd ⊢
  exact takes_of_parseWith (fun _ => Parse.reads_statements) Parse.rest_statements h hd

/-- A tree of classes without syntax errors takes all tokens before the end. -/
theorem takes_of_parseProgram {tokens : List Token}
    (h : ∀ t ∈ tokens, t.unterminated = false) (hd : (parseProgram tokens).diagnostics = []) :
    (parseProgram tokens).root.Takes (tokens.takeWhile (·.kind ≠ .eof)) := by
  rw [parseProgram_short] at hd ⊢
  exact takes_of_parseWith (fun _ => Parse.reads_program) Parse.rest_program h hd

/-- A tree of statements without syntax errors is the reading of all tokens before the end. -/
theorem readFrom_of_parseStatements {tokens : List Token}
    (h : ∀ t ∈ tokens, t.unterminated = false) (hd : (parseStatements tokens).diagnostics = []) :
    (parseStatements tokens).root.ReadFrom (tokens.takeWhile (·.kind ≠ .eof)) :=
  (takes_of_parseStatements h hd).1

/-- A tree of classes without syntax errors is the reading of all tokens before the end. -/
theorem readFrom_of_parseProgram {tokens : List Token}
    (h : ∀ t ∈ tokens, t.unterminated = false) (hd : (parseProgram tokens).diagnostics = []) :
    (parseProgram tokens).root.ReadFrom (tokens.takeWhile (·.kind ≠ .eof)) :=
  (takes_of_parseProgram h hd).1

end JavaPrimer

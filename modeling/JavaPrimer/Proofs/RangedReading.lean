import JavaPrimer.Proofs.Ranges
import JavaPrimer.Proofs.WholeLists

/-!
# Trees read from tokens in place

Tokens whose spans are ranged and that come in order of their starts are read into a sited tree, and
every complaint on the way has a ranged span, whatever is wrong with the tokens. A span that is
joined from two parts is ranged because an expression starts with the token that comes next when it
is read, and the tokens read later start no earlier.

* `Cursor.Ranged` — the tokens of a cursor are in place; `Cursor.Ranged.onward` keeps this;
* `Parse.Locates` — a step that starts behind a place and what it does from there;
* `Parse.Keeps` — the same where only what is read matters;
* `Parse.locates_bind`, `Parse.locates_spanned`, `Parse.keeps_recovering` — the rules for steps;
* `Parse.readsSited_expression`, `Parse.keeps_statement`, `Parse.keeps_classOrSkip` — constructs;
* `parse_ranged` — whole lists of tokens.
-/

namespace JavaPrimer

variable {P : Position → Prop}

/-! ### Cursors -/

/-- The end of the last token and the tokens ahead are in place. -/
structure Cursor.Ranged (P : Position → Prop) (c : Cursor) : Prop where
  last : ∀ t ∈ c.last, P t.span.stop ∧ t.span.start ≤ t.span.stop
  ahead : ∀ t ∈ c.rest ++ [c.stop], t.span.Ranged P
  ordered : (c.rest ++ [c.stop]).Pairwise fun t u => t.span.start ≤ u.span.start

namespace Cursor

/-- The next token is the first of those ahead. -/
theorem ahead_eq_current_cons (c : Cursor) : ∃ ts, c.rest ++ [c.stop] = c.current :: ts := by
  cases hc : c.rest with
  | nil => exact ⟨[], by simp [current, Cursor.ahead_short, hc]⟩
  | cons t ts => exact ⟨ts ++ [c.stop], by rw [current_cons hc]; rfl⟩

theorem Ranged.current {c : Cursor} (h : c.Ranged P) : c.current.span.Ranged P := by
  obtain ⟨ts, hts⟩ := c.ahead_eq_current_cons
  apply h.ahead
  rw [hts]
  exact List.mem_cons_self

/-- Later tokens start no earlier than the next one. -/
theorem Ranged.current_le {c : Cursor} (h : c.Ranged P) {t : Token} (ht : t ∈ c.rest ++ [c.stop]) :
    c.current.span.start ≤ t.span.start := by
  obtain ⟨ts, hts⟩ := c.ahead_eq_current_cons
  have hordered := h.ordered
  rw [hts] at ht hordered
  rcases List.mem_cons.1 ht with rfl | ht
  · exact le_refl _
  · exact (List.pairwise_cons.1 hordered).1 t ht

/-- Moving onward keeps the tokens in place. -/
theorem Ranged.onward {c d : Cursor} (h : c.Ranged P) (hd : c.Onward d) : d.Ranged P := by
  obtain ⟨ts, hts⟩ := hd.consumed
  have hstop := hd.stop
  have hahead : c.rest ++ [c.stop] = ts ++ (d.rest ++ [d.stop]) := by
    rw [hts.rest, hstop, List.append_assoc]
  constructor
  · intro t ht
    rw [hts.last, Option.mem_def, Option.or_eq_some_iff] at ht
    rcases ht with ht | ⟨-, ht⟩
    · have hranged : t.span.Ranged P := by
        apply h.ahead
        rw [hahead]
        exact List.mem_append_left _ (List.mem_of_getLast? ht)
      exact ⟨hranged.stop, hranged.ordered⟩
    · exact h.last t ht
  · intro t ht
    apply h.ahead
    rw [hahead]
    exact List.mem_append_right ts ht
  · have hordered := h.ordered
    rw [hahead] at hordered
    exact (List.pairwise_append.1 hordered).2.1

theorem Ranged.start_le {c d : Cursor} (h : c.Ranged P) (hd : c.Onward d) :
    c.current.span.start ≤ d.current.span.start := by
  apply h.current_le
  obtain ⟨ts, hts⟩ := hd.consumed
  have hstop := hd.stop
  obtain ⟨us, hus⟩ := d.ahead_eq_current_cons
  rw [hts.rest, ← hstop, List.append_assoc, hus]
  exact List.mem_append_right ts List.mem_cons_self

/-- A span up to the last token consumed is in place, and starts where it should. -/
theorem Ranged.spanSince {c : Cursor} {s : Span} (h : c.Ranged P) (hs : s.Ranged P) :
    (c.spanSince s).Ranged P ∧ (c.spanSince s).start = s.start := by
  unfold Cursor.spanSince
  split
  · next t ht =>
    split
    · exact ⟨hs, rfl⟩
    · next hbefore =>
      obtain ⟨hstop, hordered⟩ := h.last t ht
      have hstart : s.start ≤ t.span.start := Position.le_iff.2 (Bool.eq_false_iff.2 hbefore)
      exact ⟨⟨hs.start, hstop, le_trans hstart hordered⟩, rfl⟩
  · exact ⟨hs, rfl⟩

/-- A complaint is shown behind the last token or at the next one. -/
theorem Ranged.complaint {c : Cursor} (h : c.Ranged P) (x : Complaint) :
    (x.diagnostic c).span.Ranged P := by
  show (x.span c).Ranged P
  unfold Complaint.span
  split
  · next t ht =>
    split
    · exact .point (h.last t ht).1
    · exact h.current
  · exact h.current

end Cursor

/-! ### Steps -/

namespace Parse

variable {α β : Type} {low : Position}

/-- From a place not before `low` with all tokens in place, a step only moves onward, its complaints
are in place, and `Q` holds of the start of the next token and of what is read. -/
def Locates (P : Position → Prop) (low : Position) (Q : Position → α → Prop) (p : Parse .short α) :
    Prop :=
  ∀ c : Cursor, c.Ranged P → low ≤ c.current.span.start →
    c.Onward (p c).cursor ∧ (∀ d ∈ (p c).diagnostics, d.span.Ranged P)
      ∧ Q c.current.span.start (p c).value

/-- The same from any place, about what is read alone. -/
def Keeps (P : Position → Prop) (Q : α → Prop) (p : Parse .short α) : Prop :=
  ∀ low, Locates P low (fun _ => Q) p

theorem Locates.mono {Q R : Position → α → Prop} {p : Parse .short α} (h : Locates P low R p)
    (hQ : ∀ q a, R q a → Q q a) : Locates P low Q p := by
  intro c hc hlow
  obtain ⟨honward, hdiagnostics, hvalue⟩ := h c hc hlow
  exact ⟨honward, hdiagnostics, hQ _ _ hvalue⟩

theorem Locates.later {Q : Position → α → Prop} {p : Parse .short α} (h : Locates P low Q p)
    {q : Position} (hq : low ≤ q) : Locates P q Q p :=
  fun c hc hlow => h c hc (le_trans hq hlow)

theorem Keeps.mono {Q R : α → Prop} {p : Parse .short α} (h : Keeps P R p) (hQ : ∀ a, R a → Q a) :
    Keeps P Q p :=
  fun low => (h low).mono fun _ => hQ

theorem locates_pure {Q : Position → α → Prop} {a : α} (h : ∀ q, low ≤ q → Q q a) :
    Locates P low Q (Pure.pure a) :=
  fun _ _ hlow => ⟨.refl, List.forall_mem_nil _, h _ hlow⟩

theorem keeps_pure {Q : α → Prop} {a : α} (h : Q a) : Keeps P Q (Pure.pure a) :=
  fun _ => locates_pure fun _ _ => h

/-- What follows a step starts no earlier than the step did. -/
theorem locates_bind {R : Position → α → Prop} {Q : Position → β → Prop} {p : Parse .short α}
    {f : α → Parse .short β} (hp : Locates P low R p)
    (hf : ∀ q a, low ≤ q → R q a → Locates P q (fun _ => Q q) (f a)) :
    Locates P low Q (p >>= f) := by
  intro c hc hlow
  obtain ⟨honward, hdiagnostics, hvalue⟩ := hp c hc hlow
  obtain ⟨honward', hdiagnostics', hvalue'⟩ :=
    hf _ _ hlow hvalue _ (hc.onward honward) (hc.start_le honward)
  exact ⟨honward.trans honward', List.forall_mem_append.2 ⟨hdiagnostics, hdiagnostics'⟩, hvalue'⟩

theorem keeps_bind {R : α → Prop} {Q : β → Prop} {p : Parse .short α} {f : α → Parse .short β}
    (hp : Keeps P R p) (hf : ∀ a, R a → Keeps P Q (f a)) : Keeps P Q (p >>= f) :=
  fun low => locates_bind (hp low) fun q a _ ha => hf a ha q

theorem keeps_map {Q : β → Prop} {p : Parse .short α} (f : α → β)
    (h : Keeps P (fun a => Q (f a)) p) :
    Keeps P Q (f <$> p) := by
  intro low c hc hlow
  rw [map_apply]
  exact h low c hc hlow

theorem keeps_some {Q : α → Prop} {p : Parse .short α} (h : Keeps P Q p) :
    Keeps P (fun x => ∀ a ∈ x, Q a) (some <$> p) :=
  keeps_map some (h.mono fun _ hx _ ha => Option.some.inj ha ▸ hx)

theorem locates_look {Q : Position → β → Prop} {f : Cursor → α} {g : α → Parse .short β}
    (h : ∀ a, Locates P low Q (g a)) : Locates P low Q (look f >>= g) :=
  fun c hc hlow => h (f c) c hc hlow

theorem keeps_look {Q : β → Prop} {f : Cursor → α} {g : α → Parse .short β}
    (h : ∀ a, Keeps P Q (g a)) : Keeps P Q (look f >>= g) :=
  fun low => locates_look fun a => h a low

theorem locates_current {Q : Position → β → Prop} {g : Token → Parse .short β}
    (h : ∀ t : Token, t.span.Ranged P → low ≤ t.span.start →
      Locates P low (fun q b => t.span.start = q → Q q b) (g t)) :
    Locates P low Q (look Cursor.current >>= g) := by
  intro c hc hlow
  obtain ⟨honward, hdiagnostics, hvalue⟩ := h c.current hc.current hlow c hc hlow
  exact ⟨honward, hdiagnostics, hvalue rfl⟩

/-- From a start that is in place to the last token consumed. -/
theorem locates_since {Q : Position → β → Prop} {start : Span} {g : Span → Parse .short β}
    (hs : start.Ranged P)
    (h : ∀ s : Span, s.Ranged P → s.start = start.start → Locates P low Q (g s)) :
    Locates P low Q (look (Cursor.spanSince start) >>= g) := by
  intro c hc hlow
  obtain ⟨hranged, hstart⟩ := hc.spanSince hs
  exact h _ hranged hstart c hc hlow

theorem locates_advance : Locates P low
    (fun q t => t.span.Ranged P ∧ t.span.start = q) advance :=
  fun c hc _ => ⟨Cursor.onward_advance c, List.forall_mem_nil _, hc.current, rfl⟩

theorem keeps_advance : Keeps P (fun t => t.span.Ranged P) advance :=
  fun _ => locates_advance.mono fun _ _ h => h.1

theorem keeps_fail (x : Complaint) : Keeps P (fun _ => True) (fail x) := by
  intro low c hc _
  refine ⟨forward_fail x c, ?_, trivial⟩
  unfold fail
  split
  · exact List.forall_mem_nil _
  split
  · exact List.forall_mem_nil _
  · exact List.forall_mem_singleton.2 (hc.complaint x)

theorem keeps_report {d : Diagnostic} (h : d.span.Ranged P) :
    Keeps P (fun _ => True) (report d) :=
  keeps_look fun b => by
    cases b
    · exact fun _ c _ _ => ⟨.refl, List.forall_mem_singleton.2 h, trivial⟩
    · exact keeps_pure trivial

/-- A node has the span from the next token to the last one consumed for it. -/
theorem locates_spanned {Q : Position → α → Prop} {node : Parse .short (Span → α)}
    (h : Keeps P (fun build => ∀ s : Span, s.Ranged P → ∀ q, s.start = q → Q q (build s)) node) :
    Locates P low Q (spanned node) := by
  intro c hc hlow
  have hnode : Locates P low (fun q a => c.current.span.start = q → Q q a)
      (node >>= fun build => look (Cursor.spanSince c.current.span) >>= fun s =>
        Pure.pure (build s)) := by
    refine locates_bind (h low) fun q build _ hbuild => ?_
    refine locates_since hc.current fun s hs hstart => locates_pure fun _ _ htq => ?_
    exact hbuild s hs q (hstart.trans htq)
  obtain ⟨honward, hdiagnostics, hvalue⟩ := hnode c hc hlow
  exact ⟨honward, hdiagnostics, hvalue rfl⟩

theorem keeps_spanned {Q : α → Prop} {node : Parse .short (Span → α)}
    (h : Keeps P (fun build => ∀ s : Span, s.Ranged P → Q (build s)) node) :
    Keeps P Q (spanned node) :=
  fun _ => locates_spanned (h.mono fun _ hbuild s hs _ _ => hbuild s hs)

theorem keeps_expect (k : Kind) : Keeps P (fun _ => True) (expect k) :=
  keeps_look fun found => by
    split
    · exact keeps_bind keeps_advance fun _ _ => keeps_pure trivial
    · exact keeps_bind (keeps_fail _) fun _ _ => keeps_pure trivial

theorem keeps_expectAll (ks : List Kind) : Keeps P (fun _ => True) (expectAll ks) := by
  induction ks with
  | nil => exact keeps_pure trivial
  | cons k rest ih =>
    refine keeps_bind (keeps_expect k) fun b _ => ?_
    cases b
    · exact keeps_pure trivial
    · exact ih

theorem locates_expectIdent : Locates P low
    (fun q x => x.1.span.Ranged P ∧ x.1.span.start = q) expectIdent :=
  locates_current fun _ ht _ => locates_bind (keeps_expect _ _) fun _ _ _ _ =>
    locates_pure fun _ _ htq => ⟨ht, htq⟩

theorem keeps_expectIdent : Keeps P (fun x => x.1.span.Ranged P) expectIdent :=
  fun _ => locates_expectIdent.mono fun _ _ h => h.1

theorem keeps_expectWord (words : List Text) : Keeps P (fun _ => True) (expectWord words) :=
  keeps_look fun found => by
    split
    · exact keeps_bind keeps_advance fun _ _ => keeps_pure trivial
    · exact keeps_bind (keeps_fail _) fun _ _ => keeps_pure trivial

/-! ### Repetition and recovery -/

theorem keeps_collect {Q : α → Prop} {more : Cursor → Bool} {item : Parse .short (Option α)}
    (h : Keeps P (fun x => ∀ a ∈ x, Q a) item) (n : Nat) :
    Keeps P (fun xs => ∀ a ∈ xs, Q a) (collect more item n) := by
  induction n with
  | zero => exact keeps_pure (List.forall_mem_nil _)
  | succ n ih =>
    refine keeps_look fun b => ?_
    cases b
    · exact keeps_pure (List.forall_mem_nil _)
    · refine keeps_bind h fun x hx => keeps_bind ih fun xs hxs => keeps_pure ?_
      refine List.forall_mem_append.2 ⟨fun a ha => hx a ?_, hxs⟩
      exact Option.mem_toList.1 ha

theorem keeps_whileMore {Q : α → Prop} {more : Cursor → Bool} {item : Parse .short (Option α)}
    (h : Keeps P (fun x => ∀ a ∈ x, Q a) item) :
    Keeps P (fun xs => ∀ a ∈ xs, Q a) (whileMore more item) :=
  fun low c => keeps_collect h c.rest.length low c

theorem keeps_collectUntil {Q : α → Prop} {item : Parse .short (Option α)}
    (h : Keeps P (fun x => ∀ a ∈ x, Q a) item) (n : Nat) :
    Keeps P (fun xs => ∀ a ∈ xs, Q a) (collectUntil item n) := by
  induction n with
  | zero => exact keeps_pure (List.forall_mem_nil _)
  | succ n ih =>
    refine keeps_bind h fun x hx => ?_
    cases x with
    | none => exact keeps_pure (List.forall_mem_nil _)
    | some x =>
      exact keeps_bind ih fun xs hxs => keeps_pure (List.forall_mem_cons.2 ⟨hx x rfl, hxs⟩)

theorem keeps_untilNone {Q : α → Prop} {item : Parse .short (Option α)}
    (h : Keeps P (fun x => ∀ a ∈ x, Q a) item) :
    Keeps P (fun xs => ∀ a ∈ xs, Q a) (untilNone item) :=
  fun low c => keeps_collectUntil h (c.rest.length + 1) low c

theorem keeps_recovering {Q : α → Prop} {skip : Nat → Cursor → Cursor} {item : Parse .short α}
    (hs : Cursor.Skips skip) (h : Keeps P Q item) : Keeps P Q (recovering skip item) := by
  refine keeps_look fun start => keeps_bind h fun x hx => ?_
  refine keeps_bind ?_ fun _ (_ : True) => keeps_bind ?_ fun _ (_ : True) => keeps_pure hx
  · exact fun _ c _ _ => ⟨forward_settle hs start c, List.forall_mem_nil _, trivial⟩
  · exact fun _ c _ _ => ⟨forward_nudge start c, List.forall_mem_nil _, trivial⟩

/-! ### Expressions -/

/-- An expression that is sited and starts at a place. -/
structure StartsAt (P : Position → Prop) (q : Position) (e : Expr) : Prop where
  sited : e.Sited P
  span : e.span.Ranged P
  start : e.span.start = q

/-- What is read is an expression in place that starts with the next token. -/
def ReadsSited (P : Position → Prop) (p : Parse .short Expr) : Prop :=
  ∀ low, Locates P low (StartsAt P) p

theorem ReadsSited.keeps {p : Parse .short Expr} (h : ReadsSited P p) : Keeps P (Expr.Sited P) p :=
  fun low => (h low).mono fun _ _ he => he.sited

/-- An operand behind some token, joined to what starts with that token. -/
theorem StartsAt.join {q r : Position} {e : Expr} {s : Span} (h : StartsAt P r e)
    (hs : s.Ranged P) (hstart : s.start = q) (hqr : q ≤ r) :
    (s.through e.span).Ranged P ∧ (s.through e.span).start = q := by
  refine ⟨hs.through h.span ?_, hstart⟩
  rw [hstart, h.start]
  exact hqr

theorem readsSited_spanned {node : Parse .short (Span → Expr)}
    (h : Keeps P (fun build => ∀ s : Span, s.Ranged P → (build s).Sited P ∧ (build s).span = s)
      node) : ReadsSited P (spanned node) := by
  refine fun _ => locates_spanned (h.mono fun build hbuild s hs q hq => ?_)
  obtain ⟨hsited, hspan⟩ := hbuild s hs
  exact ⟨hsited, by rw [hspan]; exact hs, by rw [hspan]; exact hq⟩

theorem readsSited_expressionExpected : ReadsSited P expressionExpected :=
  fun _ => locates_current fun _ ht _ => locates_bind (keeps_fail _ _) fun _ _ _ _ =>
    locates_pure fun _ _ htq => ⟨.bad ht, ht, htq⟩

theorem locates_chain (tier : Tier) {operand : Parse .short Expr} (h : ReadsSited P operand)
    {q : Position} (n : Nat) : ∀ {left : Expr}, StartsAt P q left →
      Locates P q (fun _ => StartsAt P q) (chain tier operand n left) := by
  induction n with
  | zero => exact fun hleft => locates_pure fun _ _ => hleft
  | succ n ih =>
    intro left hleft
    refine locates_look fun op => ?_
    cases op with
    | none => exact locates_pure fun _ _ => hleft
    | some op =>
      refine locates_bind locates_advance fun q₁ mark hq₁ _ => ?_
      refine locates_bind (h q₁) fun q₂ right hq₂ hright => ?_
      -- the operator and the right side start behind the left side
      have hle : q ≤ q₂ := le_trans hq₁ hq₂
      obtain ⟨hspan, hstart⟩ := hright.join hleft.span hleft.start hle
      have hjoined : StartsAt P q (.binary (left.span.through right.span) tier.level op mark.span
          left right) := ⟨.binary hspan hleft.sited hright.sited, hspan, hstart⟩
      exact (ih hjoined).later hle

theorem readsSited_climb {operand : Parse .short Expr} (h : ReadsSited P operand) (ts : List Tier) :
    ReadsSited P (climb operand ts) := by
  induction ts with
  | nil => exact h
  | cons tier tighter ih =>
    refine fun low => locates_bind (ih low) fun q left _ hleft => locates_look fun bound => ?_
    exact locates_chain tier ih bound hleft

/-- All spans of a selector are ranged. -/
inductive SitedSelector (P : Position → Prop) : Selector → Prop
  | field {s : Span} {name : Ident} (hs : s.Ranged P) : SitedSelector P (.field s name)
  | call {s : Span} {args : List Expr} (hs : s.Ranged P) (h : ∀ e ∈ args, e.Sited P) :
    SitedSelector P (.call s args)

theorem sited_name {s : Span} {head : Ident} {selectors : List Selector} (hs : s.Ranged P)
    (hhead : head.span.Ranged P) (h : ∀ x ∈ selectors, SitedSelector P x) :
    (Expr.name s head selectors).Sited P := by
  refine .name hs hhead (fun t name hx => ?_) (fun t args hx => ?_) (fun t args hx => ?_)
  · cases h _ hx with
    | field ht => exact ht
  · cases h _ hx with
    | call ht _ => exact ht
  · cases h _ hx with
    | call _ hargs => exact hargs

section Operands

variable {expr : Parse .short Expr} (h : ReadsSited P expr)

include h

theorem keeps_argument : Keeps P (fun x => ∀ e ∈ x, e.Sited P) (argument expr) :=
  keeps_look fun b => by
    cases b
    · exact keeps_pure fun _ he => nomatch he
    · refine keeps_bind keeps_advance fun _ _ => keeps_bind h.keeps fun e he => keeps_pure ?_
      exact fun _ hx => Option.some.inj hx ▸ he

theorem keeps_arguments : Keeps P (fun es => ∀ e ∈ es, e.Sited P) (arguments expr) :=
  keeps_look fun b => by
    cases b
    · exact keeps_pure (List.forall_mem_nil _)
    · refine keeps_bind h.keeps fun first hfirst => ?_
      refine keeps_bind (keeps_untilNone (keeps_argument h)) fun more hmore => keeps_pure ?_
      exact List.forall_mem_cons.2 ⟨hfirst, hmore⟩

omit h in
theorem keeps_fieldSelector : Keeps P (fun x => ∀ a ∈ x, SitedSelector P a) fieldSelector := by
  refine fun low => locates_bind locates_advance fun q dot _ hdot => ?_
  refine locates_bind locates_expectIdent fun r x hr hx => locates_pure fun _ _ => ?_
  obtain ⟨name, there⟩ := x
  cases there
  · exact fun _ ha => nomatch ha
  · intro a ha
    obtain rfl := Option.some.inj ha
    refine .field (hdot.1.through hx.1 ?_)
    rw [hdot.2, hx.2]
    exact hr

theorem keeps_callSelector : Keeps P (fun x => ∀ a ∈ x, SitedSelector P a) (callSelector expr) := by
  refine keeps_bind keeps_advance fun mark hmark => ?_
  refine keeps_bind (keeps_arguments h) fun args hargs => keeps_look fun b => ?_
  cases b
  · refine keeps_bind (keeps_expect _) fun b _ => ?_
    cases b
    · exact keeps_pure fun _ ha => nomatch ha
    · refine fun low => locates_since hmark fun s hs _ => locates_pure fun _ _ a ha => ?_
      obtain rfl := Option.some.inj ha
      exact .call hs hargs
  · exact keeps_pure fun _ ha => nomatch ha

theorem keeps_selector : Keeps P (fun x => ∀ a ∈ x, SitedSelector P a) (selector expr) :=
  keeps_look fun b => by
    cases b
    · refine keeps_look fun k => ?_
      split
      · exact keeps_fieldSelector
      · exact keeps_callSelector h
      · exact keeps_pure fun _ ha => nomatch ha
    · exact keeps_pure fun _ ha => nomatch ha

theorem readsSited_nameExpr : ReadsSited P (nameExpr expr) :=
  readsSited_spanned (keeps_bind keeps_advance fun _ hhead =>
    keeps_bind (keeps_untilNone (keeps_selector h)) fun _ hselectors =>
      keeps_pure fun _ hs => ⟨sited_name hs hhead hselectors, rfl⟩)

theorem readsSited_newExpr : ReadsSited P (newExpr expr) := by
  have hbare : ∀ (className : Ident) (s : Span), s.Ranged P →
      (Expr.new s className []).Sited P ∧ (Expr.new s className []).span = s :=
    fun _ _ hs => ⟨.new hs (List.forall_mem_nil _), rfl⟩
  refine readsSited_spanned (keeps_bind keeps_advance fun _ _ =>
    keeps_bind keeps_expectIdent fun x _ => ?_)
  obtain ⟨className, there⟩ := x
  cases there
  · exact keeps_pure (hbare className)
  · refine keeps_bind (keeps_expect _) fun b _ => ?_
    cases b
    · exact keeps_pure (hbare className)
    · refine keeps_bind (keeps_arguments h) fun args hargs => keeps_look fun b => ?_
      have hnew : ∀ s : Span, s.Ranged P →
          (Expr.new s className args).Sited P ∧ (Expr.new s className args).span = s :=
        fun _ hs => ⟨.new hs hargs, rfl⟩
      cases b
      · exact keeps_bind (keeps_expect _) fun _ _ => keeps_pure hnew
      · exact keeps_pure hnew

theorem readsSited_parenExpr : ReadsSited P (parenExpr expr) := by
  refine readsSited_spanned (keeps_bind keeps_advance fun _ _ =>
    keeps_bind h.keeps fun inner hinner => keeps_look fun b => ?_)
  have hparen : ∀ s : Span, s.Ranged P →
      (Expr.paren s inner).Sited P ∧ (Expr.paren s inner).span = s :=
    fun _ hs => ⟨.paren hs hinner, rfl⟩
  cases b
  · exact keeps_bind (keeps_expect _) fun _ _ => keeps_pure hparen
  · exact keeps_pure hparen

theorem readsSited_primary : ReadsSited P (primary expr) := by
  refine fun low => locates_current fun next hnext _ => ?_
  split
  · refine locates_bind locates_advance fun q _ _ _ => locates_pure fun _ _ hq => ?_
    exact ⟨.literal hnext, hnext, hq⟩
  · split
    · exact (readsSited_nameExpr h low).mono fun _ _ he _ => he
    · exact (readsSited_parenExpr h low).mono fun _ _ he _ => he
    · exact (readsSited_newExpr h low).mono fun _ _ he _ => he
    · exact (readsSited_expressionExpected low).mono fun _ _ he _ => he

theorem readsSited_stepped : ReadsSited P (stepped expr) := by
  refine fun low => locates_bind (readsSited_primary h low) fun q operand _ hoperand => ?_
  refine locates_look fun op => ?_
  cases op with
  | none => exact locates_pure fun _ _ => hoperand
  | some op =>
    refine locates_bind locates_advance fun r mark hr hmark => locates_pure fun _ _ => ?_
    have hspan : (operand.span.through mark.span).Ranged P := by
      refine hoperand.span.through hmark.1 ?_
      rw [hoperand.start, hmark.2]
      exact hr
    exact ⟨.step hspan hoperand.sited, hspan, hoperand.start⟩

theorem readsSited_castExpr : ReadsSited P (castExpr expr) := by
  refine fun low => locates_bind locates_advance fun q mark _ hmark => ?_
  refine locates_bind locates_advance fun r word hr hword => ?_
  have htype : ∀ t ∈ some (⟨word.span, word.value, false⟩ : TypeSpec), t.span.Ranged P :=
    fun _ ht => Option.some.inj ht ▸ hword.1
  refine locates_bind (keeps_expect _ _) fun r' b hr' _ => ?_
  cases b
  · refine locates_since hmark.1 fun s hs hstart => locates_current fun found hfound _ => ?_
    exact locates_pure fun _ _ _ => ⟨.cast hs htype (.bad hfound), hs, hstart.trans hmark.2⟩
  · refine locates_bind (h r') fun u e hu he => locates_pure fun _ _ => ?_
    obtain ⟨hspan, hstart⟩ := he.join hmark.1 hmark.2 (le_trans hr (le_trans hr' hu))
    exact ⟨.cast hspan htype he.sited, hspan, hstart⟩

theorem readsSited_unaryWith : ReadsSited P (unaryWith expr) := by
  refine fun low => locates_look fun op => ?_
  cases op with
  | none =>
    refine locates_look fun b => ?_
    cases b
    · exact readsSited_stepped (readsSited_climb h tiers) low
    · exact readsSited_castExpr h low
  | some op =>
    refine locates_bind locates_advance fun q mark _ hmark => ?_
    refine locates_bind (h q) fun r e hr he => locates_pure fun _ _ => ?_
    obtain ⟨hspan, hstart⟩ := he.join hmark.1 hmark.2 hr
    exact ⟨.unary hspan he.sited, hspan, hstart⟩

end Operands

theorem readsSited_unary (n : Nat) : ReadsSited P (unary n) := by
  induction n with
  | zero => exact readsSited_expressionExpected
  | succ n ih => exact readsSited_unaryWith ih

theorem readsSited_expression : ReadsSited P expression :=
  fun low c => readsSited_climb (readsSited_unary (c.rest.length + 1)) tiers low c

/-! ### Statements -/

theorem keeps_typeSpec : Keeps P (fun x => ∀ t ∈ x, t.span.Ranged P) typeSpec :=
  keeps_look fun word => by
    split
    · refine keeps_spanned (keeps_bind keeps_advance fun _ _ => keeps_look fun b => ?_)
      cases b
      · exact keeps_pure fun s hs _ ht => Option.some.inj ht ▸ hs
      · exact keeps_bind keeps_advance fun _ _ => keeps_bind (keeps_expect _) fun _ _ =>
          keeps_pure fun s hs _ ht => Option.some.inj ht ▸ hs
    · exact keeps_bind (keeps_fail _) fun _ _ => keeps_pure fun _ ht => nomatch ht

theorem keeps_assigned : Keeps P (Expr.Sited P) assigned :=
  keeps_bind readsSited_expression.keeps fun _ he => keeps_look fun b => by
    cases b
    · exact keeps_bind (keeps_expect _) fun _ _ => keeps_pure he
    · exact keeps_pure he

theorem keeps_initialized : Keeps P (Expr.Sited P) initialized :=
  keeps_look fun b => by
    cases b
    · exact keeps_bind (keeps_expect _) fun _ _ => keeps_pure .missing
    · exact keeps_bind keeps_advance fun _ _ => keeps_assigned

theorem keeps_finalMark : Keeps P (fun _ => True) finalMark :=
  keeps_look fun b => by
    cases b
    · exact keeps_pure trivial
    · exact keeps_bind keeps_advance fun _ _ => keeps_pure trivial

/-- A type, a name and an initializer, of a local declaration as well as of a field. -/
theorem keeps_declared (build : Option TypeSpec → Ident → Expr → Span → α) {Q : α → Prop}
    (h : ∀ {type name init s}, SitedDeclaration P type name init → s.Ranged P →
      Q (build type name init s)) :
    Keeps P (fun f => ∀ s : Span, s.Ranged P → Q (f s)) (do
      match ← typeSpec with
      | none => return build none .absent .missing
      | some type =>
        let (name, there) ← expectIdent
        if there then
          let init ← initialized
          return build (some type) name init
        else return build (some type) name .missing) := by
  refine keeps_bind keeps_typeSpec fun type htype => ?_
  cases type with
  | none =>
    have huntyped : SitedDeclaration P none .absent .missing :=
      ⟨htype, fun hsome => absurd hsome Bool.false_ne_true, .missing⟩
    exact keeps_pure fun _ hs => h huntyped hs
  | some type =>
    refine keeps_bind keeps_expectIdent fun x hname => ?_
    obtain ⟨name, there⟩ := x
    cases there
    · exact keeps_pure fun _ hs => h ⟨htype, fun _ => hname, .missing⟩ hs
    · exact keeps_bind keeps_initialized fun _ hinit =>
        keeps_pure fun _ hs => h ⟨htype, fun _ => hname, hinit⟩ hs

theorem keeps_varDecl : Keeps P (Stmt.Sited P) varDecl :=
  keeps_spanned (keeps_bind keeps_finalMark fun isFinal _ =>
    keeps_declared (fun type name init s => Stmt.varDecl s isFinal type name init)
      fun hdecl hs => .varDecl hs hdecl)

theorem keeps_printArgument : Keeps P (Expr.Sited P) printArgument :=
  keeps_look fun b => by
    cases b
    · exact keeps_pure .missing
    · exact readsSited_expression.keeps

theorem keeps_printStmt : Keeps P (Stmt.Sited P) printStmt := by
  refine keeps_spanned (keeps_bind keeps_advance fun _ _ => keeps_bind keeps_advance fun _ _ =>
    keeps_bind keeps_advance fun _ _ => keeps_bind keeps_advance fun _ _ =>
    keeps_bind (keeps_expectWord _) fun x _ => ?_)
  obtain ⟨method, there⟩ := x
  cases there
  · exact keeps_pure fun _ hs => .print hs .missing
  · refine keeps_bind (keeps_expect _) fun b _ => ?_
    cases b
    · exact keeps_pure fun _ hs => .print hs .missing
    · refine keeps_bind keeps_printArgument fun arg harg => keeps_look fun b => ?_
      cases b
      · refine keeps_bind (keeps_expect _) fun b _ => ?_
        cases b
        · exact keeps_pure fun _ hs => .print hs harg
        · exact keeps_bind (keeps_expect _) fun _ _ => keeps_pure fun _ hs => .print hs harg
      · exact keeps_pure fun _ hs => .print hs harg

theorem keeps_exprStmt : Keeps P (Stmt.Sited P) exprStmt := by
  have htarget : Keeps P (fun e => e.Sited P ∧ e.span.Ranged P) expression :=
    fun low => (readsSited_expression low).mono fun _ _ he => ⟨he.sited, he.span⟩
  refine keeps_spanned (keeps_bind htarget fun target ⟨hsited, hspan⟩ => keeps_look fun b => ?_)
  cases b
  · refine keeps_look fun op => ?_
    cases op with
    | none =>
      exact keeps_bind (keeps_expect _) fun _ _ => keeps_pure fun _ hs => .expr hs hsited .missing
    | some op =>
      refine keeps_bind keeps_advance fun _ _ => ?_
      split
      · exact keeps_bind keeps_assigned fun _ hvalue =>
          keeps_pure fun _ hs => .expr hs hsited hvalue
      · exact keeps_bind (keeps_report hspan) fun _ _ => keeps_bind keeps_assigned fun _ hvalue =>
          keeps_pure fun _ hs => .expr hs hsited hvalue
  · exact keeps_pure fun _ hs => .expr hs hsited .missing

theorem keeps_block {stmt : Parse .short (Option Stmt)}
    (h : Keeps P (fun x => ∀ a ∈ x, a.Sited P) stmt) : Keeps P (Block.Sited P) (block stmt) :=
  keeps_spanned (keeps_bind keeps_advance fun _ _ =>
    keeps_bind (keeps_whileMore (keeps_recovering Cursor.endStatement_skips h)) fun _ hstmts =>
      keeps_bind (keeps_expect _) fun _ _ => keeps_pure fun _ hs => Stmt.Sited.block hs hstmts)

theorem keeps_statementWith {inner : Parse .short (Option Stmt)}
    (h : Keeps P (fun x => ∀ a ∈ x, a.Sited P) inner) :
    Keeps P (fun x => ∀ a ∈ x, a.Sited P) (statementWith inner) := by
  refine keeps_look fun c => ?_
  split
  · exact keeps_bind (keeps_fail _) fun _ _ => keeps_pure fun _ ha => nomatch ha
  split
  · exact keeps_some keeps_printStmt
  split
  · exact keeps_some keeps_varDecl
  split
  · exact keeps_some keeps_exprStmt
  split
  · exact keeps_bind (keeps_block h) fun b hb => keeps_pure fun _ ha => Option.some.inj ha ▸ hb
  · exact keeps_bind (keeps_fail _) fun _ _ => keeps_pure fun _ ha => nomatch ha

theorem keeps_statementWithin (n : Nat) :
    Keeps P (fun x => ∀ a ∈ x, a.Sited P) (statementWithin n) := by
  induction n with
  | zero => exact keeps_pure fun _ ha => nomatch ha
  | succ n ih => exact keeps_statementWith ih

theorem keeps_statement : Keeps P (fun x => ∀ a ∈ x, a.Sited P) statement :=
  fun low c => keeps_statementWithin (c.rest.length + 1) low c

/-! ### Classes -/

theorem keeps_methodBody : Keeps P (fun x => ∀ b ∈ x, b.Sited P) methodBody :=
  keeps_look fun b => by
    cases b
    · exact keeps_bind (keeps_expect _) fun _ _ => keeps_pure fun _ hb => nomatch hb
    · exact keeps_some (keeps_block keeps_statement)

theorem keeps_mainMethod : Keeps P (Member.Sited P) mainMethod := by
  have hnone : ∀ b ∈ (none : Option Block), b.Sited P := fun _ hb => nomatch hb
  have habsent : ∀ (name : Ident) (s : Span), s.Ranged P →
      (Member.main s name .absent none).Sited P :=
    fun _ _ hs => .main hs (fun hne => absurd rfl hne) hnone
  refine keeps_spanned (keeps_bind keeps_advance fun _ _ => keeps_bind keeps_advance fun _ _ =>
    keeps_bind keeps_advance fun _ _ => keeps_bind keeps_expectIdent fun x _ => ?_)
  obtain ⟨name, named⟩ := x
  cases named
  · exact keeps_pure (habsent name)
  · refine keeps_bind (keeps_expectAll _) fun b _ => ?_
    cases b
    · exact keeps_pure (habsent name)
    · refine keeps_bind keeps_expectIdent fun y hy => ?_
      obtain ⟨param, there⟩ := y
      cases there
      · exact keeps_pure fun _ hs => .main hs (fun _ => hy) hnone
      · refine keeps_bind (keeps_expect _) fun b _ => ?_
        cases b
        · exact keeps_pure fun _ hs => .main hs (fun _ => hy) hnone
        · exact keeps_bind keeps_methodBody fun _ hbody =>
            keeps_pure fun _ hs => .main hs (fun _ => hy) hbody

theorem keeps_modifier : Keeps P (fun x => ∀ t ∈ x, True) modifier :=
  keeps_look fun b => by
    cases b
    · exact keeps_pure fun _ _ => trivial
    · exact keeps_some (keeps_advance.mono fun _ _ => trivial)

theorem keeps_fieldDecl : Keeps P (Member.Sited P) fieldDecl :=
  keeps_spanned (keeps_bind (keeps_untilNone keeps_modifier) fun modifiers _ =>
    keeps_declared (fun type name init s => Member.field s (modifiers.map (·.value))
      (modifiers.any (·.kind = .kwFinal)) type name init) fun hdecl hs => .field hs hdecl)

theorem keeps_member : Keeps P (Member.Sited P) member :=
  keeps_look fun b => by
    cases b
    · exact keeps_fieldDecl
    · exact keeps_mainMethod

theorem keeps_classDecl : Keeps P (ClassDecl.Sited P) classDecl := by
  have hempty : ∀ (name : Ident) (s : Span), s.Ranged P → (ClassDecl.mk s name []).Sited P :=
    fun _ _ hs => ⟨hs, List.forall_mem_nil _⟩
  refine keeps_spanned (keeps_bind keeps_advance fun _ _ => keeps_bind keeps_advance fun _ _ =>
    keeps_bind keeps_expectIdent fun x _ => ?_)
  obtain ⟨name, named⟩ := x
  cases named
  · exact keeps_pure (hempty name)
  · refine keeps_bind (keeps_expect _) fun b _ => ?_
    cases b
    · exact keeps_pure (hempty name)
    · refine keeps_bind (keeps_whileMore (keeps_recovering Cursor.endMember_skips
        (keeps_some keeps_member))) fun _ hmembers => keeps_bind (keeps_expect _) fun _ _ => ?_
      exact keeps_pure fun _ hs => ⟨hs, hmembers⟩

theorem keeps_classOrSkip : Keeps P (fun x => ∀ c ∈ x, c.Sited P) classOrSkip :=
  keeps_look fun b => by
    cases b
    · exact keeps_look fun _ => keeps_bind (keeps_fail _) fun _ _ =>
        keeps_pure fun _ hc => nomatch hc
    · exact keeps_some keeps_classDecl

/-! ### Whole runs -/

theorem keeps_statements : Keeps P (Root.Sited P) statements :=
  keeps_spanned (keeps_bind
    (keeps_whileMore (keeps_recovering Cursor.endStatement_skips keeps_statement))
    fun _ hstmts => keeps_pure fun _ hs => .statements hs hstmts)

theorem keeps_program : Keeps P (Root.Sited P) program := by
  have hclasses : Keeps P (fun x => ∀ c ∈ x.1, c.Sited P) (listen classes) :=
    fun low c => keeps_whileMore (keeps_recovering Cursor.endClass_skips keeps_classOrSkip) low c
  refine keeps_spanned (keeps_bind hclasses fun x hx => ?_)
  obtain ⟨classes, errors⟩ := x
  dsimp only
  split
  · refine keeps_bind (keeps_fail _) fun _ _ => keeps_bind (R := fun _ => True) ?_ fun _ _ => ?_
    · exact fun _ c _ _ => ⟨forward_calm c, List.forall_mem_nil _, trivial⟩
    · exact keeps_pure fun _ hs => .program hs hx
  · exact keeps_pure fun _ hs => .program hs hx

end Parse

/-- Tokens in place are read into a sited tree, with every complaint in place, in either mode. -/
theorem parse_ranged {tokens : List Token} (h : (Cursor.ofTokens tokens).Ranged P) (mode : Mode) :
    (parse mode tokens).root.Sited P
      ∧ ∀ d ∈ (parse mode tokens).diagnostics, d.span.Ranged P := by
  rw [parse_short]
  cases mode with
  | full =>
    obtain ⟨-, hdiagnostics, hroot⟩ := Parse.keeps_program _ _ h (le_refl _)
    exact ⟨hroot, hdiagnostics⟩
  | statements =>
    obtain ⟨-, hdiagnostics, hroot⟩ := Parse.keeps_statements _ _ h (le_refl _)
    exact ⟨hroot, hdiagnostics⟩

end JavaPrimer

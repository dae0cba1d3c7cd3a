import JavaPrimer.Proofs.Reformatting
import JavaPrimer.Proofs.StatementBoundary

/-!
# Closing braces that are missing

Tokens that would parse without a complaint if some closing braces stood behind them are parsed
into the same tree without these, and one error is reported for each of them, all at the end of the
last token.

A brace is missed at the end of input, where the run stops with a panic. The construct around it
recovers there: nothing is ahead that could be skipped, so the panic ends, the loop over what stands
inside that construct ends too, and the next brace is missed at the very same cursor.

* `Cursor.UpTo` — exactly these tokens ahead, and then a fixed place;
* `Parse.Misses` — a run that misses so many braces at that place;
* `Parse.misses_whileMore` — repetition, in which only the last construct can miss any;
* `Parse.misses_block`, `Parse.misses_classDecl` — what stands in braces misses one more than what
  it contains;
* `parse_of_missing_braces` — whole lists of tokens.
-/

namespace JavaPrimer

/-- What is reported where a closing brace is missing. -/
def Cursor.missingBrace (e : Cursor) : Diagnostic :=
  (Complaint.token .rbrace e.current).diagnostic e

/-- No panic, exactly the tokens given ahead, and `e` behind them. -/
structure Cursor.UpTo (c : Cursor) (ts : List Token) (e : Cursor) : Prop extends c.At ts where
  consumed : c.Consumed ts e
  sameStop : e.stop = c.stop

namespace Cursor.UpTo

variable {c d e : Cursor} {us vs : List Token}

theorem rest_end (h : c.UpTo us e) : e.rest = [] := by
  have hrest : us = us ++ e.rest := h.rest.symm.trans h.consumed.rest
  exact List.self_eq_append_right.1 hrest

/-- The place behind the tokens stays where it is. -/
theorem onward (h : c.UpTo us e) (hd : c.Onward d) (hat : d.At vs) : d.UpTo vs e := by
  obtain ⟨ts, hts⟩ := hd.consumed
  have hus : us = ts ++ vs := by rw [← h.rest, hts.rest, hat.rest]
  refine ⟨hat, ⟨?_, ?_⟩, h.sameStop.trans hd.stop.symm⟩
  · rw [hat.rest, h.rest_end, List.append_nil]
  · rw [h.consumed.last, hus, hts.last, List.getLast?_append, Option.or_assoc]

theorem advance {t : Token} (h : c.UpTo (t :: us) e) : c.advance.UpTo us e :=
  h.onward (onward_advance c) h.toAt.advance

/-- Before no token at all is the place behind them. -/
theorem eq_end (h : c.UpTo [] e) (he : e.Calm) : c = e := by
  have hrest := h.rest
  have hquiet := h.quiet
  have hlast := h.consumed.last
  have hstop := h.sameStop
  have hend := h.rest_end
  have hcalm := he.quiet
  cases c
  cases e
  simp_all
  rfl

end Cursor.UpTo

/-- Behind all tokens of a list. -/
theorem Cursor.upTo_ofTokens {tokens : List Token} (h : ∀ t ∈ tokens, t.kind ≠ .eof) :
    (Cursor.ofTokens tokens).UpTo tokens { Cursor.ofTokens tokens with
      last := tokens.getLast?, rest := [] } := by
  have hstop := kind_stop_ofTokens (ρ := .short) tokens
  rw [ofTokens_of_no_end h] at hstop ⊢
  exact ⟨⟨rfl, rfl, hstop⟩, ⟨(List.append_nil tokens).symm, Option.or_none.symm⟩, rfl⟩

/-! ### Splitting in front of the last braces -/

section Split

variable (front : List Token) {us vs bs : List Token} {l r : Token}

/-- What is not a closing brace stands in front of the last closing braces. -/
theorem split_before_braces (h : front ++ l :: vs = us ++ bs) (hl : l.kind ≠ .rbrace)
    (hbs : ∀ b ∈ bs, b.kind = .rbrace) : ∃ ws, us = front ++ l :: ws ∧ vs = ws ++ bs := by
  rcases List.append_eq_append_iff.1 h with ⟨as, rfl, has⟩ | ⟨as, -, rfl⟩
  · rcases List.cons_eq_append_iff.1 has with ⟨-, rfl⟩ | ⟨ws, rfl, rfl⟩
    · exact absurd (hbs l List.mem_cons_self) hl
    · exact ⟨ws, rfl, rfl⟩
  · exact absurd (hbs l (List.mem_append_right as List.mem_cons_self)) hl

/-- Of what stands in braces the closing one is the last of the last closing braces. -/
theorem split_between_braces (h : front ++ l :: (vs ++ [r]) = us ++ bs) (hl : l.kind ≠ .rbrace)
    (hbs : ∀ b ∈ bs, b.kind = .rbrace) (hne : bs ≠ []) :
    ∃ ws bs', us = front ++ l :: ws ∧ vs = ws ++ bs' ∧ bs = bs' ++ [r] := by
  obtain ⟨ws, hus, hvs⟩ := split_before_braces front h hl hbs
  obtain ⟨bs', b, rfl⟩ := (List.eq_nil_or_concat bs).resolve_left hne
  rw [List.concat_eq_append, ← List.append_assoc] at hvs
  obtain ⟨rfl, hr⟩ := List.append_inj' hvs rfl
  obtain rfl : r = b := List.head_eq_of_cons_eq hr
  exact ⟨ws, bs', hus, rfl, List.concat_eq_append⟩

/-- What ends in something other than a closing brace is not the front of closing braces. -/
theorem not_before_braces (h : front ++ [r] = us ++ bs) (hr : r.kind ≠ .rbrace)
    (hbs : ∀ b ∈ bs, b.kind = .rbrace) : bs = [] := by
  obtain ⟨ws, -, hws⟩ := split_before_braces front h hr hbs
  exact (List.append_eq_nil_iff.1 hws.symm).2

end Split

/-- A statement that ends in a closing brace is a block. -/
theorem Stmt.eq_block_of_readFrom {x : Stmt} {us bs : List Token} (h : x.ReadFrom (us ++ bs))
    (hbs : ∀ b ∈ bs, b.kind = .rbrace) (hne : bs ≠ []) : ∃ s stmts, x = .block s stmts := by
  have hsemi : ∀ (front : List Token) (q : Token), us ++ bs = front ++ [q] → q.kind ≠ .semi := by
    intro front q heq hq
    exact hne (not_before_braces front heq.symm (by rw [hq]; decide) hbs)
  cases x with
  | block s stmts => exact ⟨s, stmts, rfl⟩
  | varDecl s isFinal type name init =>
    obtain ⟨fs, vs, heq, -, ws, x, zs, q, rfl, -, -, -, hq⟩ := h
    exact absurd hq (hsemi (fs ++ (ws ++ x :: zs)) q (by simp [heq]))
  | print s method arg =>
    obtain ⟨t, d, o, d', m, l, vs, r, q, heq, -, -, -, -, -, -, hq⟩ := h
    exact absurd hq (hsemi (t :: d :: o :: d' :: m :: l :: (vs ++ [r])) q (by simp [heq]))
  | expr s target op t value =>
    obtain ⟨vs, ws, q, heq, -, -, -, hq⟩ := h
    exact absurd hq (hsemi (vs ++ ws) q (by simp [heq]))
  | missing => cases h

/-! ### Recovery at the end of input -/

namespace Cursor

variable {c : Cursor}

/-- A way to skip that stays where it is at the end of input. -/
def StaysAtEnd (skip : Nat → Cursor → Cursor) : Prop :=
  ∀ start (c : Cursor), c.rest = [] → c.stop.kind = .eof → skip start c = c

theorem past_of_nil {k : Kind} (hc : c.rest = []) (hstop : c.stop.kind = .eof) (hk : k ≠ .eof) :
    c.past k = c := by
  have hkind : c.kind = .eof := by simpa [kind, current, ahead_short, hc] using hstop
  rw [past, if_neg (by rw [hkind]; exact hk.symm)]

theorem staysAtEnd_endStatement : StaysAtEnd endStatement := by
  intro start c hc hstop
  unfold endStatement
  rw [skipTo_of_nil _ hc, past_of_nil hc hstop (by decide), ite_self]

theorem staysAtEnd_endMember : StaysAtEnd endMember := by
  intro start c hc hstop
  have hkind : c.kind ≠ .lbrace := by
    rw [show c.kind = c.stop.kind by simp [kind, current, ahead_short, hc], hstop]
    decide
  unfold endMember
  dsimp only
  rw [skipTo_of_nil _ hc, if_neg hkind, past_of_nil hc hstop (by decide), ite_self]

theorem staysAtEnd_endClass : StaysAtEnd endClass := fun _ _ hc _ => skipTo_of_nil _ hc

end Cursor

namespace Parse

/-- A run of `p` from `c` reports `n` times that a brace is missing at `e`, ends at `d`, and gives a
value with the property `Q`. -/
structure Misses {α : Type} (p : Parse .short α) (e c : Cursor) (n : Nat) (d : Cursor)
    (Q : α → Prop) :
    Prop where
  reports : (p c).diagnostics = List.replicate n e.missingBrace
  ends : (p c).cursor = d
  value : Q (p c).value

variable {α β : Type} {c d d' e : Cursor} {m n : Nat} {us vs bs : List Token}

/-! ### Rules for steps -/

section Rules

variable {p : Parse .short α} {f : α → Parse .short β} {Q : α → Prop} {Q' : β → Prop}

theorem Misses.imp {Q' : α → Prop} (h : p.Misses e c n d Q) (hQ : ∀ a, Q a → Q' a) :
    p.Misses e c n d Q' :=
  ⟨h.reports, h.ends, hQ _ h.value⟩

theorem misses_pure {a : α} (h : Q a) : (Pure.pure a : Parse .short α).Misses e c 0 c Q :=
    ⟨rfl, rfl, h⟩

theorem Misses.bind (hp : p.Misses e c m d Q) (hf : ∀ a, Q a → (f a).Misses e d n d' Q') :
    (p >>= f).Misses e c (m + n) d' Q' := by
  have h := hf _ hp.value
  rw [← hp.ends] at h
  refine ⟨?_, h.ends, h.value⟩
  rw [bind_apply, hp.reports, h.reports, List.replicate_append_replicate]

theorem Misses.map {g : α → β} (h : p.Misses e c n d fun a => Q' (g a)) :
    (g <$> p).Misses e c n d Q' := by
  refine ⟨?_, ?_, ?_⟩
  · rw [map_apply]
    exact h.reports
  · rw [map_apply]
    exact h.ends
  · rw [map_apply]
    exact h.value

theorem misses_look_bind {g : Cursor → α} (h : (f (g c)).Misses e c n d Q') :
    (look g >>= f).Misses e c n d Q' :=
  ⟨h.reports, h.ends, h.value⟩

theorem misses_spanned {node : Parse .short (Span → α)}
    (h : node.Misses e c n d fun build => ∀ s, Q (build s)) : (spanned node).Misses e c n d Q :=
  misses_look_bind (h.bind fun _ hQ => misses_look_bind (misses_pure (hQ _)))

/-- A run that takes all tokens and reports nothing misses nothing. -/
theorem Gives.misses (h : p.Gives c [] Q) (hp : Forward p) (hc : c.UpTo us e) (he : e.Calm) :
    p.Misses e c 0 e Q :=
  ⟨h.clean, (hc.onward (hp c) h.ends).eq_end he, h.value⟩

/-- What comes before the first brace that is missing. -/
theorem Gives.misses_bind (h : p.Gives c vs Q) (hp : Forward p) (hc : c.UpTo us e)
    (hf : ∀ d' a, d'.UpTo vs e → Q a → (f a).Misses e d' n d Q') :
    (p >>= f).Misses e c n d Q' := by
  have hrest := hf _ _ (hc.onward (hp c) h.ends) h.value
  refine ⟨?_, hrest.ends, hrest.value⟩
  rw [bind_apply, h.clean, hrest.reports]
  rfl

theorem misses_advance_bind {t : Token} {f : Token → Parse .short β} (hc : c.UpTo (t :: us) e)
    (h : ∀ d', d'.UpTo us e → (f t).Misses e d' n d Q') : (advance >>= f).Misses e c n d Q' := by
  have hadvance : advance.Gives c us (· = t) := gives_advance hc.toAt rfl
  refine hadvance.misses_bind forward_advance hc ?_
  rintro d' _ hd' rfl
  exact h d' hd'

theorem misses_expect_bind {k : Kind} {t : Token} {f : Bool → Parse .short β}
    (hc : c.UpTo (t :: us) e)
    (ht : t.kind = k) (h : ∀ d', d'.UpTo us e → (f true).Misses e d' n d Q') :
    (expect k >>= f).Misses e c n d Q' := by
  refine (gives_expect hc.toAt ht).misses_bind (forward_expect k) hc ?_
  rintro d' _ hd' rfl
  exact h d' hd'

theorem misses_expectIdent_bind {t : Token} {f : Ident × Bool → Parse .short β}
    (hc : c.UpTo (t :: us) e) (ht : t.kind = .ident)
    (h : ∀ d', d'.UpTo us e → (f (⟨t.value, t.span⟩, true)).Misses e d' n d Q') :
    (expectIdent >>= f).Misses e c n d Q' := by
  refine (gives_expectIdent hc.toAt ht).misses_bind forward_expectIdent hc ?_
  rintro d' _ hd' rfl
  exact h d' hd'

/-- The brace that is missing: the end of input stands where it should be. -/
theorem misses_expect (he : e.Calm) (hend : e.rest = []) :
    (expect .rbrace).Misses e e 1 { e with panicking := true } (· = false) := by
  have hkind : e.current.kind ≠ .rbrace := by
    have hcurrent : e.current = e.stop := by simp [Cursor.current, Cursor.ahead_short, hend]
    rw [hcurrent, he.stop]
    decide
  refine misses_look_bind ?_
  rw [if_neg hkind]
  have hfail := fail_quiet (.token .rbrace e.current) he.quiet he.last
  refine Misses.bind (m := 1) (n := 0) (d := { e with panicking := true }) (Q := fun _ => True) ?_
    fun _ _ => misses_pure rfl
  exact ⟨by rw [hfail]; rfl, by rw [hfail], trivial⟩

end Rules

/-! ### Repetition -/

/-- A repetition that goes on wherever one of its constructs may start, none of them with a closing
brace, and that ends at the end of input. -/
structure Repeats (more : Cursor → Bool) (skip : Nat → Cursor → Cursor)
    (item : Parse .short (Option α)) (P : α → List Token → Prop) : Prop where
  skips : Cursor.Skips skip
  stays : Cursor.StaysAtEnd skip
  forward : Forward item
  ne_nil : ∀ x, ¬ P x []
  starts : ∀ x t ts, P x (t :: ts) → t.kind ≠ .rbrace
  goesOn : ∀ t ts (d : Cursor), d.At (t :: ts) → t.kind ≠ .rbrace → more d = true
  ends : ∀ d : Cursor, d.At [] → more d = false

section Repetition

variable {skip : Nat → Cursor → Cursor} {more : Cursor → Bool} {item : Parse .short (Option α)}
  {P : α → List Token → Prop} {f : α → β} {bound : Nat}

/-- At the end of input recovery does nothing but end the panic. -/
theorem Misses.recovering {item : Parse .short α} {Q : α → Prop} (hskip : Cursor.StaysAtEnd skip)
    (he : e.Calm) (hend : e.rest = []) (hc : c.rest ≠ [])
    (h : item.Misses e c n { e with panicking := true } Q) :
    (recovering skip item).Misses e c n e Q := by
  have hne : e.rest.length ≠ c.rest.length := by
    rw [hend]
    exact fun hlen => hc (List.eq_nil_of_length_eq_zero hlen.symm)
  have hsettle : settle skip c.rest.length { e with panicking := true } = ⟨(), [], e⟩ := by
    have hquiet := he.quiet
    have hstay := hskip c.rest.length { e with panicking := true } hend he.stop
    simp only [settle, move, if_true, hstay]
    rw [← hquiet]
  refine ⟨?_, ?_, ?_⟩
  · rw [recovering_apply]
    exact h.reports
  · rw [recovering_apply, h.ends, hsettle]
    simp [nudge, move, hne]
  · rw [recovering_apply]
    exact h.value

/-- Nothing that starts with something else is read from closing braces. -/
theorem Repeats.eq_nil_of_braces (h : Repeats more skip item P) {xs : List α}
    (hread : ReadEach P xs us) (hus : ∀ t ∈ us, t.kind = .rbrace) : xs = [] := by
  cases xs with
  | nil => rfl
  | cons x xs =>
    obtain ⟨vs, ws, rfl, hx, -⟩ := hread
    cases vs with
    | nil => exact absurd hx (h.ne_nil x)
    | cons t vs => exact absurd (hus t (by simp)) (h.starts x t vs hx)

/-- At the end of input the repetition is over. -/
theorem Repeats.misses_end (h : Repeats more skip item P) (he : e.Calm) (n : Nat)
    (hc : c.UpTo [] e) : (collect more (recovering skip item) n).Misses e c 0 e (· = []) :=
  (gives_collect_end (h.ends c hc.toAt) hc.toAt n).misses
    (forward_collect more (forward_recovering h.skips h.forward) n) hc he

/-- Constructs with their recovery, read one after another from tokens without their last closing
braces. No construct starts with such a brace, so only one of them can miss any, and behind that
one the input ends. -/
theorem Repeats.misses_collect (h : Repeats more skip item P) (he : e.Calm)
    (hbs : ∀ b ∈ bs, b.kind = .rbrace) {xs : List α}
    (hgives : ∀ x ∈ xs, ∀ d us ts, P x us → d.rest.length ≤ bound → d.At (us ++ ts) →
      item.Gives d ts fun o => ∃ y, o = some y ∧ f y = f x)
    (hmisses : ∀ x ∈ xs, ∀ d us, P x (us ++ bs) → bs ≠ [] → d.rest.length ≤ bound → d.UpTo us e →
      item.Misses e d bs.length { e with panicking := true } fun o => ∃ y, o = some y ∧ f y = f x) :
    ∀ n us, us.length ≤ n → us.length ≤ bound → ReadEach P xs (us ++ bs) → ∀ c : Cursor,
      c.UpTo us e →
      (collect more (recovering skip item) n).Misses e c bs.length e
        fun ys => ys.map f = xs.map f := by
  induction xs with
  | nil =>
    intro n us _ _ hread c hc
    obtain ⟨rfl, rfl⟩ := List.append_eq_nil_iff.1 (show us ++ bs = [] from hread)
    exact (h.misses_end he n hc).imp fun ys hys => congrArg (List.map f) hys
  | cons x xs ih =>
    rintro n us hn hbound ⟨vs, ws, hsplit, hx, hxs⟩ c hc
    obtain ⟨t, vs, rfl⟩ : ∃ t vs', vs = t :: vs' :=
      List.exists_cons_of_ne_nil fun hvs => h.ne_nil x (hvs ▸ hx)
    have ht : t.kind ≠ .rbrace := h.starts x t vs hx
    obtain ⟨rest, rfl, hrest⟩ := split_before_braces [] hsplit.symm ht hbs
    simp only [List.nil_append, List.length_cons] at hn hbound hc ⊢
    obtain ⟨n, rfl⟩ : ∃ m, n = m + 1 := ⟨n - 1, by omega⟩
    have hlen : c.rest.length ≤ bound := by
      rw [hc.rest, List.length_cons]
      exact hbound
    -- either the first construct has all its tokens, or the last braces are its own
    have hcases : (∃ as, rest = vs ++ as ∧ ws = as ++ bs)
        ∨ bs ≠ [] ∧ vs = rest ++ bs ∧ ws = [] := by
      rcases List.append_eq_append_iff.1 hrest with hfirst | ⟨as, hvs, hsuffix⟩
      · exact .inl hfirst
      · have hall : ∀ b ∈ ws, b.kind = .rbrace := fun b hb =>
          hbs b (hsuffix ▸ List.mem_append_right as hb)
        obtain rfl := h.eq_nil_of_braces hxs hall
        obtain rfl : ws = [] := hxs
        rw [List.append_nil] at hsuffix
        by_cases hne : bs = []
        · exact .inl ⟨[], by rw [hvs, ← hsuffix, hne]; simp, hne.symm⟩
        · exact .inr ⟨hne, by rw [hvs, hsuffix], rfl⟩
    refine misses_look_bind ?_
    rw [if_pos (h.goesOn t rest c hc.toAt ht)]
    rcases hcases with ⟨as, rfl, rfl⟩ | ⟨hne, rfl, rfl⟩
    · have hat : c.At ((t :: vs) ++ as) := hc.toAt
      have hlt : as.length < c.rest.length := by
        rw [hc.rest, List.length_cons, List.length_append]
        omega
      have hfirst : (recovering skip item).Gives c as fun o => ∃ y, o = some y ∧ f y = f x :=
        gives_recovering (hgives x List.mem_cons_self c (t :: vs) as hx hlen hat) hlt
      refine hfirst.misses_bind (forward_recovering h.skips h.forward) hc ?_
      rintro d o hd ⟨y, rfl, hy⟩
      rw [List.length_append] at hn hbound
      have hloop := ih (fun z hz => hgives z (List.mem_cons_of_mem x hz))
        (fun z hz => hmisses z (List.mem_cons_of_mem x hz)) n as (by omega) (by omega) hxs d hd
      refine hloop.bind (n := 0) fun ys hys => misses_pure ?_
      show f y :: ys.map f = f x :: xs.map f
      rw [hy, hys]
    · obtain rfl := h.eq_nil_of_braces hxs fun t ht => nomatch ht
      have hbroken := hmisses x List.mem_cons_self c (t :: rest) hx hne hlen hc
      have hcne : c.rest ≠ [] := by
        rw [hc.rest]
        exact List.cons_ne_nil _ _
      refine (hbroken.recovering h.stays he hc.rest_end hcne).bind (n := 0) ?_
      rintro o ⟨y, rfl, hy⟩
      have hend : e.UpTo [] e := ⟨⟨hc.rest_end, he.quiet, he.stop⟩, .refl e, rfl⟩
      refine (h.misses_end he n hend).bind (n := 0) ?_
      rintro ys rfl
      exact misses_pure (by show [f y] = [f x]; rw [hy])

theorem Repeats.misses_whileMore (h : Repeats more skip item P) (he : e.Calm)
    (hbs : ∀ b ∈ bs, b.kind = .rbrace) {xs : List α}
    (hgives : ∀ x ∈ xs, ∀ d us ts, P x us → d.rest.length ≤ c.rest.length → d.At (us ++ ts) →
      item.Gives d ts fun o => ∃ y, o = some y ∧ f y = f x)
    (hmisses : ∀ x ∈ xs, ∀ d us, P x (us ++ bs) → bs ≠ [] → d.rest.length ≤ c.rest.length →
      d.UpTo us e → item.Misses e d bs.length { e with panicking := true }
        fun o => ∃ y, o = some y ∧ f y = f x)
    (hread : ReadEach P xs (us ++ bs)) (hc : c.UpTo us e) :
    (whileMore more (recovering skip item)).Misses e c bs.length e
      fun ys => ys.map f = xs.map f := by
  have hlen : us.length ≤ c.rest.length := by rw [hc.rest]
  have hall := h.misses_collect he hbs hgives hmisses c.rest.length us hlen hlen hread c hc
  exact ⟨hall.reports, hall.ends, hall.value⟩

end Repetition

/-! ### Statements -/

theorem repeats_statement {stmt : Parse .short (Option Stmt)} (h : Forward stmt) :
    Repeats inBlock Cursor.endStatement stmt Stmt.ReadFrom where
  skips := Cursor.endStatement_skips
  stays := Cursor.staysAtEnd_endStatement
  forward := h
  ne_nil := Stmt.not_readFrom_nil
  starts := by
    intro x t ts hx ht
    obtain ⟨u, us, heq, hu⟩ := Stmt.startsStatement_of_readFrom hx
    rw [← (List.cons.inj heq).1, ht] at hu
    cases hu
  goesOn := fun t ts d hd ht => inBlock_of_ne hd ht
  ends := fun d hd => by simp [inBlock, Cursor.atEnd, hd.rest]

/-- What stands in braces, and then the brace that is missing. -/
theorem misses_closing {more : Cursor → Bool} {skip : Nat → Cursor → Cursor}
    {item : Parse .short (Option α)} {Q : List α → Prop} {Q' : (Span → β) → Prop}
    {build : List α → Span → β} (he : e.Calm) (hend : e.rest = [])
    (h : (whileMore more (recovering skip item)).Misses e c n e Q)
    (hQ : ∀ xs, Q xs → Q' (build xs)) :
    Misses (do
      let xs ← whileMore more (recovering skip item)
      let _ ← expect .rbrace
      return build xs) e c (n + 1) { e with panicking := true } Q' := by
  refine h.bind fun xs hxs => (misses_expect he hend).bind (n := 0) fun _ _ => ?_
  exact misses_pure (hQ xs hxs)

/-- A block without its last closing braces, with `inner` for its statements. -/
theorem misses_block {inner : Parse .short (Option Stmt)} {s : Span} {stmts : List Stmt}
    {bound : Nat} (hread : (Stmt.block s stmts).ReadFrom (us ++ bs)) (hne : bs ≠ []) (he : e.Calm)
    (hbs : ∀ b ∈ bs, b.kind = .rbrace) (hinner : Forward inner) (hbound : us.length ≤ bound + 1)
    (hgives : ∀ x ∈ stmts, ∀ d us ts, x.ReadFrom us → d.rest.length ≤ bound → d.At (us ++ ts) →
      inner.Gives d ts fun o => ∃ y, o = some y ∧ y.bare = x.bare)
    (hmisses : ∀ x ∈ stmts, ∀ d us bs, x.ReadFrom (us ++ bs) → bs ≠ [] →
      (∀ b ∈ bs, b.kind = .rbrace) → d.rest.length ≤ bound → d.UpTo us e →
      inner.Misses e d bs.length { e with panicking := true }
        fun o => ∃ y, o = some y ∧ y.bare = x.bare) (hc : c.UpTo us e) :
    (block inner).Misses e c bs.length { e with panicking := true }
      fun b => b.stmts.map Stmt.bare = stmts.map Stmt.bare := by
  obtain ⟨l, vs, r, heq, hl, -, hstmts⟩ := hread
  rw [stmtsReadFrom_eq] at hstmts
  have hopen : l.kind ≠ .rbrace := by
    rw [hl]
    decide
  obtain ⟨ws, bs, rfl, rfl, rfl⟩ := split_between_braces [] heq.symm hopen hbs hne
  have hbs : ∀ b ∈ bs, b.kind = .rbrace := fun b hb => hbs b (List.mem_append_left _ hb)
  rw [List.nil_append] at hc hbound
  rw [List.length_append, List.length_singleton]
  refine misses_spanned (misses_advance_bind hc fun d hd => ?_)
  have hlen : d.rest.length ≤ bound := by
    rw [hd.rest]
    exact Nat.le_of_succ_le_succ hbound
  refine misses_closing he hd.rest_end ((repeats_statement hinner).misses_whileMore he hbs
    (fun x hx d us ts hread hle => hgives x hx d us ts hread (hle.trans hlen))
    (fun x hx d us hread hne hle => hmisses x hx d us bs hread hne hbs (hle.trans hlen))
    hstmts hd) fun found hfound _ => hfound

/-- A block that is not closed starts with its opening brace all the same. -/
theorem kind_of_block {s : Span} {stmts : List Stmt}
    (hread : (Stmt.block s stmts).ReadFrom (us ++ bs)) (hbs : ∀ b ∈ bs, b.kind = .rbrace)
    (hc : c.At us) : c.kind = .lbrace := by
  obtain ⟨l, vs, r, heq, hl, -⟩ := hread
  have hopen : l.kind ≠ .rbrace := by
    rw [hl]
    decide
  obtain ⟨ws, rfl, -⟩ := split_before_braces [] heq.symm hopen hbs
  exact hc.kind.trans hl

/-- Blocks in blocks: each of them misses its own brace, the innermost first. -/
theorem misses_statementWithin (he : e.Calm) (n : Nat) : ∀ (x : Stmt) us bs, x.ReadFrom (us ++ bs) →
    bs ≠ [] → (∀ b ∈ bs, b.kind = .rbrace) → us.length < n → ∀ c : Cursor, c.UpTo us e →
    (statementWithin n).Misses e c bs.length { e with panicking := true }
      fun o => ∃ y, o = some y ∧ y.bare = x.bare := by
  induction n with
  | zero => exact fun _ _ _ _ _ _ hn => absurd hn (Nat.not_lt_zero _)
  | succ n ih =>
    intro x us bs hread hne hbs hn c hc
    obtain ⟨s, stmts, rfl⟩ := x.eq_block_of_readFrom hread hbs hne
    have hk : c.kind = .lbrace := kind_of_block hread hbs hc.toAt
    have hprint : c.startsPrint = false := startsPrint_of_kind (by rw [hk]; decide)
    have hpos : 0 < us.length := by
      rw [← hc.rest, List.length_pos_iff]
      intro hnil
      have hstop : c.kind = c.stop.kind := by
        simp [Cursor.kind, Cursor.current, Cursor.ahead_short, hnil]
      rw [hstop, hc.stop] at hk
      cases hk
    have hbound : us.length ≤ us.length - 1 + 1 := by omega
    have hblock := misses_block hread hne he hbs (forward_statementWithin n) hbound
      (fun x _ d vs ts hx hle hd => gives_statementWithin x n d vs ts hx (by
        rw [hd.rest, List.length_append] at hle
        omega) hd)
      (fun x _ d vs bs hx hne hbs hle hd => ih x vs bs hx hne hbs (by
        rw [hd.rest] at hle
        omega) d hd) hc
    refine misses_look_bind ?_
    show Misses (if (c.kind == .ident && (c.ahead 1).kind == .ident) = true then _ else
      if c.startsPrint = true then _ else if c.kind.startsVarDecl = true then _ else
      if c.kind.startsExpression = true then _ else if (c.kind == .lbrace) = true then _ else _)
        e c _ _ _
    rw [hprint, hk]
    refine hblock.bind (n := 0) fun b hb => misses_pure ⟨_, rfl, ?_⟩
    simp only [Stmt.bare, bareStmts_eq, hb]

theorem misses_statement {x : Stmt} (he : e.Calm) (hread : x.ReadFrom (us ++ bs)) (hne : bs ≠ [])
    (hbs : ∀ b ∈ bs, b.kind = .rbrace) (hc : c.UpTo us e) :
    statement.Misses e c bs.length { e with panicking := true }
      fun o => ∃ y, o = some y ∧ y.bare = x.bare := by
  have hlen : us.length < c.rest.length + 1 := by
    rw [hc.rest]
    omega
  have h := misses_statementWithin he (c.rest.length + 1) x us bs hread hne hbs hlen c hc
  exact ⟨h.reports, h.ends, h.value⟩

/-! ### Members and classes -/

/-- The body of a main method without its last closing braces. -/
theorem misses_methodBody {b : Block} (he : e.Calm) (hread : b.ReadFrom (us ++ bs)) (hne : bs ≠ [])
    (hbs : ∀ b ∈ bs, b.kind = .rbrace) (hc : c.UpTo us e) :
    methodBody.Misses e c bs.length { e with panicking := true }
      fun o => ∃ found, o = some found ∧ found.bare = b.bare := by
  have hk : c.kind = .lbrace := kind_of_block hread hbs hc.toAt
  have hblock := misses_block hread hne he hbs forward_statement (Nat.le_succ _)
    (fun x _ d vs ts hx _ hd => gives_statement hx hd)
    (fun x _ d vs bs hx hne hbs _ hd => misses_statement he hx hne hbs hd) hc
  apply misses_look_bind
  rw [if_pos (by rw [hk]; rfl)]
  refine (hblock.imp fun found hfound => ⟨found, rfl, ?_⟩).map
  rw [Block.bare, Block.bare, hfound]

theorem misses_mainMethod {s : Span} {name param : Ident} {body : Option Block} (he : e.Calm)
    (hread : (Member.main s name param body).ReadFrom (us ++ bs)) (hne : bs ≠ [])
    (hbs : ∀ b ∈ bs, b.kind = .rbrace) (hc : c.UpTo us e) :
    c.startsMain = true ∧ mainMethod.Misses e c bs.length { e with panicking := true }
      fun x => x.bare = (Member.main s name param body).bare := by
  obtain ⟨hs, n, ls, x, r, vs, heq, hhs, hn, hls, hx, hr, b, rfl, hb⟩ := hread
  obtain ⟨l, ws, r', rfl, hl, hlast⟩ := id hb
  have hopen : l.kind ≠ .rbrace := by
    rw [hl]
    decide
  have hfront : (hs ++ n :: (ls ++ [x, r])) ++ l :: (ws ++ [r']) = us ++ bs := by
    rw [heq]
    simp
  obtain ⟨vs, rfl, hvs⟩ := split_before_braces _ hfront hopen hbs
  rw [hvs] at hb
  have hat : c.UpTo (hs ++ n :: (ls ++ x :: r :: (l :: vs))) e := by simpa using hc
  refine ⟨startsMain_of_kinds hat.toAt hhs, ?_⟩
  obtain ⟨h₀, hs, rfl, -, hhs⟩ := List.map_eq_cons_iff.1 hhs
  obtain ⟨h₁, hs, rfl, -, hhs⟩ := List.map_eq_cons_iff.1 hhs
  obtain ⟨h₂, hs, rfl, -, hhs⟩ := List.map_eq_cons_iff.1 hhs
  obtain rfl : hs = [] := List.map_eq_nil_iff.1 hhs
  simp only [List.cons_append, List.nil_append] at hat
  refine misses_spanned (misses_advance_bind hat fun c hc => misses_advance_bind hc fun c hc => ?_)
  refine misses_advance_bind hc fun c hc => misses_expectIdent_bind hc hn.1 fun c hc => ?_
  refine (gives_expectAll hc.toAt hls).misses_bind (forward_expectAll _) hc ?_
  rintro c _ hc rfl
  refine misses_expectIdent_bind hc hx.1 fun c hc => misses_expect_bind hc hr fun c hc => ?_
  refine (misses_methodBody he hb hne hbs hc).bind (n := 0) ?_
  rintro _ ⟨found, rfl, hfound⟩
  refine misses_pure fun s' => ?_
  simp only [Member.bare, Ident.bare, hn.2, hx.2, Option.map_some, hfound]

/-- A member that ends in a closing brace is a main method. -/
theorem misses_member {x : Member} (he : e.Calm) (hread : x.ReadFrom (us ++ bs)) (hne : bs ≠ [])
    (hbs : ∀ b ∈ bs, b.kind = .rbrace) (hc : c.UpTo us e) :
    member.Misses e c bs.length { e with panicking := true } fun y => y.bare = x.bare := by
  cases x with
  | main s name param body =>
    obtain ⟨hmain, hmisses⟩ := misses_mainMethod he hread hne hbs hc
    refine misses_look_bind ?_
    rw [if_pos hmain]
    exact hmisses
  | field s modifiers isFinal type name init =>
    obtain ⟨ms, vs, heq, -, -, -, ws, x, zs, q, rfl, -, -, -, hq⟩ := hread
    have hsemi : q.kind ≠ .rbrace := by
      rw [hq]
      decide
    have hfront : (ms ++ (ws ++ x :: zs)) ++ [q] = us ++ bs := by
      rw [heq]
      simp
    exact absurd (not_before_braces _ hfront hsemi hbs) hne

theorem repeats_member : Repeats inBlock Cursor.endMember (some <$> member) Member.ReadFrom where
  skips := Cursor.endMember_skips
  stays := Cursor.staysAtEnd_endMember
  forward := forward_map _ forward_member
  ne_nil := Member.not_readFrom_nil
  starts := by
    intro x t ts hx ht
    obtain ⟨u, us, heq, hu⟩ := Member.startsMember_of_readFrom hx
    rw [← (List.cons.inj heq).1, ht] at hu
    cases hu
  goesOn := fun t ts d hd ht => inBlock_of_ne hd ht
  ends := fun d hd => by simp [inBlock, Cursor.atEnd, hd.rest]

/-- A class without its last closing braces. -/
theorem misses_classOrSkip {x : ClassDecl} (he : e.Calm) (hread : x.ReadFrom (us ++ bs))
    (hne : bs ≠ []) (hbs : ∀ b ∈ bs, b.kind = .rbrace) (hc : c.UpTo us e) :
    classOrSkip.Misses e c bs.length { e with panicking := true }
      fun o => ∃ y, o = some y ∧ y.bare = x.bare := by
  obtain ⟨hs, n, l, vs, r, heq, hhs, hn, hl, hms, -⟩ := hread
  have hopen : l.kind ≠ .rbrace := by
    rw [hl]
    decide
  have hfront : (hs ++ [n]) ++ l :: (vs ++ [r]) = us ++ bs := by
    rw [heq]
    simp
  obtain ⟨ws, bs, rfl, rfl, rfl⟩ := split_between_braces _ hfront hopen hbs hne
  have hbs : ∀ b ∈ bs, b.kind = .rbrace := fun b hb => hbs b (List.mem_append_left _ hb)
  have hat : c.UpTo (hs ++ n :: l :: ws) e := by simpa using hc
  obtain ⟨h₀, hs, rfl, hk₀, hhs⟩ := List.map_eq_cons_iff.1 hhs
  obtain ⟨h₁, hs, rfl, hk₁, hhs⟩ := List.map_eq_cons_iff.1 hhs
  obtain rfl : hs = [] := List.map_eq_nil_iff.1 hhs
  simp only [List.cons_append, List.nil_append] at hat
  have hstart : c.startsClass = true := by
    simp [Cursor.startsClass, Cursor.kind, Cursor.current, Cursor.ahead_short, hat.rest, hk₀, hk₁]
  rw [List.length_append, List.length_singleton]
  refine misses_look_bind ?_
  rw [if_pos hstart]
  refine Misses.map (misses_spanned (misses_advance_bind hat fun c hc => ?_))
  refine misses_advance_bind hc fun c hc => misses_expectIdent_bind hc hn.1 fun c hc => ?_
  refine misses_expect_bind hc hl fun c hc => ?_
  refine misses_closing he hc.rest_end (repeats_member.misses_whileMore he hbs
    (fun y _ d us ts hy _ hd => Gives.map ((gives_member hy hd).imp fun z hz => ⟨z, rfl, hz⟩))
    (fun y _ d us hy hne _ hd =>
      Misses.map ((misses_member he hy hne hbs hd).imp fun z hz => ⟨z, rfl, hz⟩))
    hms hc) fun members hmembers s => ⟨_, rfl, ?_⟩
  simp only [ClassDecl.bare, Ident.bare, hn.2, hmembers]

/-! ### Whole lists of tokens -/

theorem repeats_classOrSkip :
    Repeats (fun c => !c.atEnd) Cursor.endClass classOrSkip ClassDecl.ReadFrom where
  skips := Cursor.endClass_skips
  stays := Cursor.staysAtEnd_endClass
  forward := forward_classOrSkip
  ne_nil := ClassDecl.not_readFrom_nil
  starts := by
    rintro x t ts ⟨hs, n, l, vs, r, heq, hhs, -⟩ ht
    obtain ⟨h₀, hs, rfl, hk₀, -⟩ := List.map_eq_cons_iff.1 hhs
    rw [(List.cons.inj heq).1, hk₀] at ht
    cases ht
  goesOn := fun t ts d hd _ => atEnd_of_readFrom hd
  ends := fun d hd => by simp [Cursor.atEnd, hd.rest]

theorem misses_statements {s : Span} {stmts : List Stmt} (he : e.Calm)
    (hread : (Root.statements s stmts).ReadFrom (us ++ bs)) (hbs : ∀ b ∈ bs, b.kind = .rbrace)
    (hc : c.UpTo us e) : statements.Misses e c bs.length e
      fun root => root.bare = (Root.statements s stmts).bare := by
  have hrepeats : Repeats (fun c => !c.atEnd) Cursor.endStatement statement Stmt.ReadFrom :=
    { repeats_statement forward_statement with
      goesOn := fun t ts d hd _ => atEnd_of_readFrom hd
      ends := fun d hd => by simp [Cursor.atEnd, hd.rest] }
  have hloop := hrepeats.misses_whileMore (f := Stmt.bare) he hbs
    (fun x _ d us ts hx _ hd => gives_statement hx hd)
    (fun x _ d us hx hne _ hd => misses_statement he hx hne hbs hd) hread hc
  refine misses_spanned (hloop.bind (n := 0) fun found hfound => misses_pure fun s' => ?_)
  simp only [Root.bare, hfound]

theorem misses_program {s : Span} {xs : List ClassDecl} (he : e.Calm)
    (hread : (Root.program s xs).ReadFrom (us ++ bs)) (hbs : ∀ b ∈ bs, b.kind = .rbrace)
    (hc : c.UpTo us e) : program.Misses e c bs.length e
      fun root => root.bare = (Root.program s xs).bare := by
  obtain ⟨hne, hxs⟩ := hread
  have hloop : classes.Misses e c bs.length e
      fun found => found.map ClassDecl.bare = xs.map ClassDecl.bare :=
    repeats_classOrSkip.misses_whileMore he hbs
      (fun x _ d us ts hx _ hd => gives_classOrSkip hx hd)
      (fun x _ d us hx hne _ hd => misses_classOrSkip he hx hne hbs hd) hxs hc
  have hlisten : (listen classes).Misses e c bs.length e
      fun found => found.1.map ClassDecl.bare = xs.map ClassDecl.bare :=
    ⟨hloop.reports, hloop.ends, hloop.value⟩
  refine misses_spanned (hlisten.bind (n := 0) ?_)
  rintro ⟨found, errors⟩ hfound
  have hsome : found ≠ [] := by
    rintro rfl
    exact hne (List.map_eq_nil_iff.1 hfound.symm)
  show Misses (if (found.isEmpty && errors.isEmpty) = true then _ else _) e e 0 e _
  rw [if_neg (by simp [hsome])]
  refine misses_pure fun s' => ?_
  simp only [Root.bare, hfound]

end Parse

/-! ### Whole lists of tokens without their last closing braces -/

/-- Nothing is read from closing braces alone. -/
theorem Root.not_readFrom_braces {x : Root} {bs : List Token} (h : x.ReadFrom bs)
    (hbs : ∀ b ∈ bs, b.kind = .rbrace) : bs = [] := by
  cases x with
  | statements s stmts =>
    obtain rfl := (Parse.repeats_statement Parse.forward_statement).eq_nil_of_braces h hbs
    exact h
  | program s classes =>
    exact absurd (Parse.repeats_classOrSkip.eq_nil_of_braces h.2 hbs) h.1

/-- The report of a missing brace stands behind the last token before the end of input. -/
theorem Cursor.missingBrace_eq {e : Cursor} {last : Token} (hend : e.rest = [])
    (hstop : e.stop.kind = .eof) (hlast : e.last = some last) :
    e.missingBrace.category = .unclosedBrace
      ∧ e.missingBrace.span = .point last.span.stop := by
  have hkind : e.kind = .eof := by
    simpa [Cursor.kind, Cursor.current, Cursor.ahead_short, hend] using hstop
  refine ⟨rfl, ?_⟩
  exact Parse.span_of_closer hlast rfl (.inl hkind)

/-- A tree that is read from tokens and closing braces behind them is what the tokens alone are
parsed into. -/
theorem parse_of_readFrom_braces {mode : Mode} {x : Root} {tokens braces : List Token} {e : Cursor}
    (hmode : x.InMode mode) (hread : x.ReadFrom (tokens ++ braces))
    (hbraces : ∀ b ∈ braces, b.kind = .rbrace) (he : e.Calm)
    (hc : (Cursor.ofTokens tokens).UpTo tokens e) :
    (parse mode tokens).diagnostics = List.replicate braces.length e.missingBrace
      ∧ (parse mode tokens).root.bare = x.bare := by
  rw [parse_short]
  cases x with
  | statements s stmts =>
    cases mode with
    | full => exact absurd hmode id
    | statements =>
      have h := Parse.misses_statements he hread hbraces hc
      exact ⟨h.reports, h.value⟩
  | program s classes =>
    cases mode with
    | full =>
      have h := Parse.misses_program he hread hbraces hc
      exact ⟨h.reports, h.value⟩
    | statements => exact absurd hmode id

/-- Tokens that lack only their last closing braces are parsed into the tree that they have with
these braces, and each brace is reported once, at the end of the last token. -/
theorem parse_of_missing_braces {mode : Mode} {tokens braces : List Token}
    (hends : ∀ t ∈ tokens, t.kind ≠ .eof) (hbraces : ∀ b ∈ braces, b.kind = .rbrace)
    (hne : braces ≠ []) (hcut : ∀ t ∈ tokens ++ braces, t.unterminated = false)
    (hclean : (parse mode (tokens ++ braces)).diagnostics = []) :
    ∃ last, tokens.getLast? = some last
      ∧ (parse mode tokens).diagnostics.length = braces.length
      ∧ (∀ x ∈ (parse mode tokens).diagnostics,
          x.category = .unclosedBrace ∧ x.span = .point last.span.stop)
      ∧ (parse mode tokens).root.bare = (parse mode (tokens ++ braces)).root.bare := by
  have hall : (tokens ++ braces).takeWhile (·.kind ≠ .eof) = tokens ++ braces := by
    refine Cursor.takeWhile_of_no_end (List.forall_mem_append.2 ⟨hends, fun b hb => ?_⟩)
    rw [hbraces b hb]
    decide
  have hread : (parse mode (tokens ++ braces)).root.ReadFrom (tokens ++ braces) := by
    have htakes : (parse mode (tokens ++ braces)).root.ReadFrom
        ((tokens ++ braces).takeWhile (·.kind ≠ .eof)) := by
      cases mode with
      | full => exact readFrom_of_parseProgram hcut hclean
      | statements => exact readFrom_of_parseStatements hcut hclean
    rwa [hall] at htakes
  have hsome : tokens ≠ [] := by
    rintro rfl
    exact hne (Root.not_readFrom_braces hread hbraces)
  have hlast : tokens.getLast? = some (tokens.getLast hsome) := List.getLast?_eq_some_getLast hsome
  have hc := Cursor.upTo_ofTokens hends
  have he : Cursor.Calm { Cursor.ofTokens tokens with last := tokens.getLast?, rest := [] } := by
    refine ⟨(Cursor.fields_ofTokens tokens).2, ?_, ?_, hc.toAt.stop⟩
    · exact fun t ht => hcut t (List.mem_append_left _ (List.mem_of_getLast? ht))
    · exact fun t ht => nomatch ht
  obtain ⟨hreports, hbare⟩ := parse_of_readFrom_braces (inMode_parse _ _) hread hbraces he hc
  obtain ⟨hcategory, hspan⟩ := Cursor.missingBrace_eq hc.rest_end he.stop hlast
  refine ⟨_, hlast, ?_, fun x hx => ?_, hbare⟩
  · rw [hreports, List.length_replicate]
  · rw [hreports] at hx
    obtain rfl := List.eq_of_mem_replicate hx
    exact ⟨hcategory, hspan⟩

/-- A program that breaks off in its main method, behind `x;`. -/
def brokenOff : List Token :=
  [⟨.kwPublic, "public", ⟨⟨1, 1⟩, ⟨1, 7⟩⟩, false⟩, ⟨.kwClass, "class", ⟨⟨1, 8⟩, ⟨1, 13⟩⟩, false⟩,
    ⟨.ident, "A", ⟨⟨1, 14⟩, ⟨1, 15⟩⟩, false⟩, ⟨.lbrace, "\x7b", ⟨⟨1, 16⟩, ⟨1, 17⟩⟩, false⟩,
    ⟨.kwPublic, "public", ⟨⟨2, 3⟩, ⟨2, 9⟩⟩, false⟩,
    ⟨.kwStatic, "static", ⟨⟨2, 10⟩, ⟨2, 16⟩⟩, false⟩, ⟨.kwVoid, "void", ⟨⟨2, 17⟩, ⟨2, 21⟩⟩, false⟩,
    ⟨.ident, "main", ⟨⟨2, 22⟩, ⟨2, 26⟩⟩, false⟩, ⟨.lparen, "(", ⟨⟨2, 27⟩, ⟨2, 28⟩⟩, false⟩,
    ⟨.kwString, "String", ⟨⟨2, 29⟩, ⟨2, 35⟩⟩, false⟩, ⟨.lbracket, "[", ⟨⟨2, 36⟩, ⟨2, 37⟩⟩, false⟩,
    ⟨.rbracket, "]", ⟨⟨2, 38⟩, ⟨2, 39⟩⟩, false⟩, ⟨.ident, "args", ⟨⟨2, 40⟩, ⟨2, 44⟩⟩, false⟩,
    ⟨.rparen, ")", ⟨⟨2, 45⟩, ⟨2, 46⟩⟩, false⟩, ⟨.lbrace, "\x7b", ⟨⟨2, 47⟩, ⟨2, 48⟩⟩, false⟩,
    ⟨.ident, "x", ⟨⟨3, 5⟩, ⟨3, 6⟩⟩, false⟩, ⟨.semi, ";", ⟨⟨3, 6⟩, ⟨3, 7⟩⟩, false⟩]

/-- Two closing braces, those of a main method and its class. -/
def twoBraces : List Token :=
  [⟨.rbrace, "\x7d", ⟨⟨4, 3⟩, ⟨4, 4⟩⟩, false⟩, ⟨.rbrace, "\x7d", ⟨⟨5, 1⟩, ⟨5, 2⟩⟩, false⟩]

/-- The main method and the class are both reported, right behind the semicolon. -/
theorem parse_of_missing_braces_brokenOff :
    (parse .full (brokenOff ++ twoBraces)).diagnostics = []
      ∧ ∃ last, brokenOff.getLast? = some last
        ∧ (parse .full brokenOff).diagnostics.length = 2
        ∧ (∀ x ∈ (parse .full brokenOff).diagnostics,
            x.category = .unclosedBrace ∧ x.span = .point last.span.stop)
        ∧ (parse .full brokenOff).root.bare = (parse .full (brokenOff ++ twoBraces)).root.bare := by
  have hclean : (parse .full (brokenOff ++ twoBraces)).diagnostics = [] := rfl
  exact ⟨hclean, parse_of_missing_braces (by decide) (by decide) (by decide) (by decide) hclean⟩

end JavaPrimer

import JavaPrimer.Proofs.BraceRecovery

/-!
# Recovery and the braces of classes

The bodies of main methods and classes keep the braces as blocks do. A broken member passes over a
pair of braces as a whole, so that only the braces inside the bodies have to be shielded.

* `BodiesShielded` — the lists between two braces that match are shielded;
* `Parse.members_whileMore` — the members of a class keep the braces;
* `Parse.classes_whileMore` — so do the classes of a program;
* `parse_keepsBraces` — whole runs;
* `block_ends_early` — where a brace is not shielded a block can end too early.
-/

namespace JavaPrimer

/-- What stands between two braces that match is shielded. -/
def BodiesShielded (ts : List Token) : Prop :=
  ∀ us l m vs, ts = us ++ l :: (m ++ vs) → l.kind = .lbrace → Balanced m → Shielded (some l) m

theorem BodiesShielded.behind {us vs : List Token} (h : BodiesShielded (us ++ vs)) :
    BodiesShielded vs := by
  intro ws l m xs hall hl hm
  exact h (us ++ ws) l m xs (by rw [hall, List.append_assoc]) hl hm

/-- What stands between the braces of a class, where the braces inside two others are shielded. -/
theorem ShieldedFrom.bodies {before mid after : List Token} {l : Token}
    (h : ShieldedFrom 2 (before ++ l :: (mid ++ after)))
    (hbefore : countKind .rbrace before ≤ countKind .lbrace before) (hl : l.kind = .lbrace)
    (hmid : Balanced mid) : BodiesShielded mid := by
  intro us k m vs hall hk hm
  have hcount := hmid.count_le.2 hall
  have hopened : countKind .rbrace (before ++ l :: us ++ [k]) + 2
      ≤ countKind .lbrace (before ++ l :: us ++ [k]) := by
    simp [countKind_append, countKind_cons, hl, hk]
    omega
  have hall' : before ++ l :: (mid ++ after) = before ++ l :: us ++ [k] ++ (m ++ (vs ++ after)) := by
    rw [hall]
    simp
  rw [hall'] at h
  have hinside := h.inside hopened hm
  rwa [List.getLast?_concat] at hinside

namespace Parse

variable {c : Cursor} {mid after : List Token}

/-! ### Members -/

theorem isBodiless_of_isField {x : Member} (h : x.IsField) : x.isBodiless = true := by
  cases h
  rfl

/-- A member without a body consumes no brace; the main method may end in a block. -/
theorem member_cases (c : Cursor) :
    (c.Flat (member c).cursor ∧ (member c).value.isBodiless = true)
    ∨ ∃ d s name param, c.Near d ∧ d.kind = .lbrace ∧ (member c).cursor = (block statement d).cursor
      ∧ (member c).value = .main s name param (some (block statement d).value) := by
  have hstep : member c = (if c.startsMain then mainMethod else fieldDecl) c := rfl
  rw [hstep]
  split
  · next hs =>
    rcases leads_mainMethod hs with ⟨hflat, s, name, param, hvalue⟩ | hbody
    · refine .inl ⟨hflat, ?_⟩
      rw [hvalue]
      rfl
    · exact .inr hbody
  · have hfield : fieldDecl.Passes c Member.IsField := passes_fieldDecl
    exact .inl ⟨hfield.1, isBodiless_of_isField hfield.2⟩

/-- No member starts at a brace. -/
theorem panicking_member (hk : c.kind = .lbrace) : (member c).cursor.panicking = true := by
  have hmain : c.startsMain = false := by simp [Cursor.startsMain, hk]
  have hmodifiers : (untilNone modifier).Leads c fun _ d => d = c := by
    have hnone : modifier c = ⟨none, [], c⟩ := by simp [modifier, look, hk, Kind.isModifier]
    simp [Leads, untilNone, collectUntil, hnone]
  have htype : typeSpec.Leads c fun type d => type = none ∧ d.panicking = true := by
    apply leads_look_bind
    rw [if_neg (by rw [show c.current.kind = .lbrace from hk]; decide)]
    exact ⟨rfl, panicking_fail _ c⟩
  have hfield : fieldDecl.Leads c fun _ d => d.panicking = true := by
    apply leads_spanned
    apply hmodifiers.bind
    rintro modifiers _ rfl
    apply htype.bind
    rintro _ d ⟨rfl, hd⟩
    exact hd
  have hstep : member c = (if c.startsMain then mainMethod else fieldDecl) c := rfl
  rw [hstep, hmain]
  exact hfield

/-- What recovery from a member without a body has consumed, from the start of the member on. -/
theorem members_skipped (h : c.Region mid after) (hne : mid ≠ [])
    {item : Parse .short (Option Member)} (hitem : Forward item) (hflat : c.Flat (item c).cursor)
    (hopen : c.kind = .lbrace → (item c).cursor.panicking = true) :
    ∃ u v, mid = u ++ v ∧ c.Consumed u (recovering Cursor.endMember item c).cursor ∧ Balanced v
      ∧ ∀ xs, MembersIn v xs → MembersIn mid xs := by
  have hrest : c.rest ≠ [] := by
    rw [h.rest]
    exact List.append_ne_nil_of_left_ne_nil hne after
  have hplain : c.kind ≠ .lbrace → c.kind.isBrace = false := by
    intro hk
    apply Kind.isBrace_of_ne hk
    obtain ⟨t, ts, rfl⟩ := List.exists_cons_of_ne_nil hne
    rw [show c.kind = t.kind from congrArg Token.kind (Cursor.current_cons h.rest)]
    exact h.balanced.head_ne
  -- no brace has been consumed, or there is a pair of braces at the end
  have hdone : ∀ {d : Cursor}, c.Flat d → ∃ u v, mid = u ++ v ∧ c.Consumed u d ∧ Balanced v
      ∧ ∀ xs, MembersIn v xs → MembersIn mid xs := by
    intro d hd
    obtain ⟨u, v, hmid, hu, hv, hconsumed, -⟩ := h.flat hd
    refine ⟨u, v, hmid, hconsumed, hv, fun xs hxs => ?_⟩
    rw [hmid]
    exact hxs.braceless hu
  rw [recovering_apply]
  by_cases hp : (item c).cursor.panicking = true
  · have hsettle : (settle Cursor.endMember c.rest.length (item c).cursor).cursor
        = { (item c).cursor.endMember c.rest.length with panicking := false } := by
      simp only [settle, move, hp, if_true]
    rw [hsettle]
    rcases Cursor.endMember_cases hflat with ⟨hskip, hk⟩ | ⟨e, he, hbrace, hstop, hskip⟩
    · exact hdone (flat_nudge (hplain (hk hrest)) (hskip.panic false))
    · obtain ⟨u, v, rfl, hu, hv, hconsumed, -⟩ := h.flat he
      have hregion : ({ e with panicking := false } : Cursor).Region v after :=
        h.behind hv ⟨hconsumed.rest, hconsumed.last⟩ (hstop.trans (hitem c).stop) rfl
      obtain ⟨l, ts, rfl, hl⟩ := hregion.opens hbrace
      obtain ⟨m, r, w, rfl, hr, hm, hw⟩ := hv.opened hl
      have hahead : e.rest = l :: m ++ r :: (w ++ after) := by
        rw [show e.rest = (l :: (m ++ r :: w)) ++ after from hregion.rest]
        simp
      have hall : c.Consumed (u ++ (l :: m ++ [r])) { e.skipBody with panicking := false } := by
        rw [Cursor.skipBody_eq hahead hl hm hr]
        refine hconsumed.trans ⟨by rw [hahead]; simp, ?_⟩
        rw [List.getLast?_concat]
        rfl
      have hshort : ({ e.skipBody with panicking := false } : Cursor).rest.length ≠ c.rest.length := by
        rw [hall.rest]
        simp
        omega
      rw [hskip]
      simp only [nudge, move, hshort, if_false]
      refine ⟨u ++ (l :: m ++ [r]), w, by simp, hall, hw, fun xs hxs => ?_⟩
      exact (MembersIn.braces hl hm hr hxs).braceless hu
  · have hsettle : (settle Cursor.endMember c.rest.length (item c).cursor).cursor
        = (item c).cursor := by
      simp only [settle, move, hp]
      rfl
    rw [hsettle]
    exact hdone (flat_nudge (hplain fun hk => hp (hopen hk)) hflat)

/-- One member of a region with its recovery. -/
theorem members_round (h : c.Region mid after) (hs : BodiesShielded mid) (hne : mid ≠ []) :
    ∃ u v, mid = u ++ v
      ∧ c.Consumed u (recovering Cursor.endMember (some <$> member) c).cursor ∧ Balanced v
      ∧ ∀ xs, MembersIn v xs → MembersIn mid ((member c).value :: xs) := by
  have hitem : (some <$> member) c = ⟨some (member c).value, (member c).diagnostics,
      (member c).cursor⟩ := map_apply _ _ c
  rcases member_cases c with ⟨hflat, hbodiless⟩ | ⟨d, s, name, param, hd, hopen, hcursor, hvalue⟩
  · obtain ⟨u, v, hmid, hconsumed, hv, hput⟩ := members_skipped h hne (forward_map some forward_member)
      (by rw [hitem]; exact hflat) (by rw [hitem]; exact panicking_member)
    exact ⟨u, v, hmid, hconsumed, hv, fun xs hxs => .member hbodiless (hput xs hxs)⟩
  · obtain ⟨u, v, rfl, hu, hv, hconsumed, hrest⟩ := h.flat hd.flat
    have hregion := h.behind hv hconsumed hd.stop (hd.panicking.trans h.calm)
    obtain ⟨l, ts, rfl, hl⟩ := hregion.opens hopen
    have hblock := leads_block_region hregion hl fun m r w hts hadvance => by
      have hbalanced := hadvance.balanced
      have hlast : d.advance.last = some l := by rw [Cursor.advance_cons hregion.rest]
      apply blocks_inBlock hadvance
      rw [hlast]
      exact hs u l m (r :: w) (by rw [hts]) hl hbalanced
    obtain ⟨m, r, w, stmts, rfl, hr, hw, hblocks, hbody, hall, hcalm⟩ := hblock
    have hfront := hconsumed.trans hall
    have hshort : ((some <$> member) c).cursor.rest.length < c.rest.length := by
      rw [hitem, hcursor, hfront.rest]
      simp
      omega
    rw [recovering_of_calm (by rw [hitem, hcursor]; exact hcalm) hshort, hitem, hcursor, hvalue,
      hbody]
    refine ⟨u ++ (l :: m ++ [r]), w, by simp, hfront, hw, fun xs hxs => ?_⟩
    exact (MembersIn.main hl hblocks hr hxs).braceless hu

/-- The members of a class keep the braces. -/
theorem members_whileMore (h : c.Region mid after) (hs : BodiesShielded mid) :
    MembersIn mid (membersWhile c).value ∧ c.Consumed mid (membersWhile c).cursor
      ∧ (membersWhile c).cursor.Region [] after := by
  have hkept := kept_whileMore (P := MembersIn) (I := fun c m => c.Region m after ∧ BodiesShielded m)
    rest_of_inBlock Cursor.endMember_skips (forward_map some forward_member) .nil
    (fun hc => ⟨hc.1.stop, more_inBlock hc.1⟩) ?_ ⟨h, hs⟩
  · exact ⟨hkept.1, hkept.2.1, hkept.2.2.1⟩
  rintro c m ⟨hc, hsc⟩ hne
  obtain ⟨u, v, rfl, hconsumed, hv, hput⟩ := members_round hc hsc hne
  have hstop := (forward_recovering Cursor.endMember_skips (forward_map some forward_member) c).stop
  refine ⟨u, v, rfl, hconsumed, ⟨?_, hsc.behind⟩, fun xs hxs => ?_⟩
  · exact hc.behind hv hconsumed hstop (panicking_recovering _ _ c)
  · rw [map_apply]
    exact hput xs hxs

/-! ### Classes -/

/-- From the first of some tokens to the last. -/
theorem spanSince_spanTo {d : Cursor} {us : List Token} {q : Token} (h : c.Consumed us d)
    (hq : us.getLast? = some q) : d.spanSince c.current.span = c.current.spanTo q := by
  have hlast : d.last = some q := by rw [h.last, hq, Option.some_or]
  simp [Cursor.spanSince, hlast, Token.spanTo]

section Tokens

variable {tokens before : List Token} (hbalanced : Balanced tokens)
  (hshield : ShieldedFrom 2 tokens) (htokens : tokens = before ++ c.rest)
  (hstop : c.stop.kind = .eof) (hcalm : c.panicking = false)

include hbalanced hshield htokens hstop hcalm

/-- A class keeps its braces, wherever in the tokens it stands. -/
theorem classDecl_keeps (hs : c.startsClass = true) : ∃ us, c.Consumed us (classDecl c).cursor
    ∧ ∀ ws xs, ClassesIn ws xs → ClassesIn (us ++ ws) ((classDecl c).value :: xs) := by
  have hk : c.kind = .kwPublic := by simpa using (Bool.and_eq_true_iff.1 hs).1
  obtain ⟨ts, hts⟩ := Cursor.rest_eq_of_kind hstop (show c.kind ≠ .eof by rw [hk]; decide)
  have hfirst := Cursor.consumed_advance hts
  have hhead : ∀ {us}, Braceless us → Braceless (c.current :: us) := by
    intro us hus
    refine List.forall_mem_cons.2 ⟨?_, hus⟩
    rw [show c.current.kind = .kwPublic from hk]
    rfl
  rcases leads_classDecl hs with ⟨⟨us, hus, hflat⟩, name, hvalue⟩ | ⟨d, name, hd, hopen, hcursor, hvalue⟩
  · have hall : c.Consumed (c.current :: us) (classDecl c).cursor := hfirst.trans hus
    have hlast := List.getLast?_eq_some_getLast (List.cons_ne_nil c.current us)
    refine ⟨c.current :: us, hall, fun ws xs hxs => ?_⟩
    rw [hvalue, spanSince_spanTo hall hlast]
    exact .headless (hhead hflat) rfl hlast hxs
  · obtain ⟨us, hus, hflat⟩ := hd.flat
    have hend : d.stop.kind = .eof := by
      rw [hd.stop, Cursor.stop_advance]
      exact hstop
    obtain ⟨vs, hvs⟩ := Cursor.rest_eq_of_kind hend (show d.kind ≠ .eof by rw [hopen]; decide)
    have hfront := hfirst.trans hus
    have hplace : tokens = before ++ (c.current :: us) ++ d.current :: vs := by
      rw [htokens, hfront.rest, hvs]
      simp
    obtain ⟨mid, r, after, rfl, hr, hmid⟩ := hbalanced.opens hplace hopen
    have hregion : d.advance.Region mid (r :: after) := by
      refine ⟨?_, hmid, ?_, ?_, ?_⟩
      · rw [Cursor.rest_advance, hvs, List.tail_cons]
      · intro q hq
        cases hq
        exact hr
      · rw [Cursor.stop_advance]
        exact hend
      · rw [Cursor.panicking_advance, hd.panicking, Cursor.panicking_advance]
        exact hcalm
    have hbodies : BodiesShielded mid := by
      rw [hplace] at hshield
      apply hshield.bodies _ hopen hmid
      exact hbalanced.count_le.2 hplace
    obtain ⟨hmembers, hconsumed, hclose⟩ := members_whileMore hregion hbodies
    have hahead : (membersWhile d.advance).cursor.rest = r :: after := hclose.rest
    have hexpect : (expect .rbrace (membersWhile d.advance).cursor).cursor
        = (membersWhile d.advance).cursor.advance := by
      rcases leads_expect .rbrace (c := (membersWhile d.advance).cursor) with
        ⟨-, -, hadvance⟩ | ⟨-, hne, -⟩
      · exact hadvance
      · refine absurd ?_ hne
        show (membersWhile d.advance).cursor.current.kind = .rbrace
        rw [Cursor.current_cons hahead]
        exact hr
    have hall : c.Consumed (c.current :: us ++ d.current :: mid ++ [r]) (classDecl c).cursor := by
      rw [hcursor, hexpect]
      have hbody := (Cursor.consumed_advance hvs).trans (hconsumed.trans
        (Cursor.consumed_advance hahead))
      have hwhole := hfront.trans hbody
      simpa using hwhole
    refine ⟨c.current :: us ++ d.current :: mid ++ [r], hall, fun ws xs hxs => ?_⟩
    rw [hvalue, spanSince_spanTo hall List.getLast?_concat, List.append_assoc, List.singleton_append]
    exact .class (hhead hflat) rfl hopen hmembers hr hxs

theorem classOrSkip_keeps : ∃ us, c.Consumed us (classOrSkip c).cursor
    ∧ ∀ ws xs, ClassesIn ws xs → ClassesIn (us ++ ws) ((classOrSkip c).value.toList ++ xs) := by
  have hstep : classOrSkip c = (if c.startsClass then some <$> classDecl
      else look Cursor.current >>= fun found => fail (.classDecl found) >>= fun _ =>
        Pure.pure none) c := rfl
  by_cases hs : c.startsClass = true
  · rw [hstep, if_pos hs, map_apply]
    exact classDecl_keeps hbalanced hshield htokens hstop hcalm hs
  · obtain ⟨us, hus⟩ := (forward_classOrSkip c).consumed
    have hvalue : (classOrSkip c).value = none := by
      rw [hstep, if_neg hs]
      rfl
    refine ⟨us, hus, fun ws xs hxs => ?_⟩
    rw [hvalue]
    exact hxs.append us

end Tokens

/-- The classes of a program keep the braces. -/
theorem classes_whileMore {tokens : List Token} (hbalanced : Balanced tokens)
    (hshield : ShieldedFrom 2 tokens) (hrest : c.rest = tokens) (hstop : c.stop.kind = .eof)
    (hcalm : c.panicking = false) : ClassesIn tokens (classes c).value := by
  have hkept := kept_whileMore (P := ClassesIn) (I := fun d ts => d.rest = ts ∧ d.stop.kind = .eof
    ∧ d.panicking = false ∧ ts <:+ tokens) rest_of_goesOn Cursor.endClass_skips forward_classOrSkip
    .nil (fun {d ts} hd => ⟨hd.2.1, by rw [← hd.1]; simp [Cursor.atEnd]⟩) ?_
    ⟨hrest, hstop, hcalm, List.suffix_refl tokens⟩
  · exact hkept.1
  rintro d ts ⟨rfl, hend, hquiet, before, htokens⟩ -
  obtain ⟨us, hus, hput⟩ := classOrSkip_keeps hbalanced hshield htokens.symm hend hquiet
  have hskipped : (classOrSkip d).cursor.Onward
      (recovering Cursor.endClass classOrSkip d).cursor := by
    rw [recovering_apply]
    exact (forward_settle Cursor.endClass_skips _ _).trans (forward_nudge _ _)
  obtain ⟨ws, hws⟩ := hskipped.consumed
  have hall := hus.trans hws
  have hstops := (forward_recovering Cursor.endClass_skips forward_classOrSkip d).stop
  refine ⟨us ++ ws, _, hall.rest, hall, ⟨rfl, hstops ▸ hend, panicking_recovering _ _ d, ?_⟩, ?_⟩
  · exact hall.suffix.trans ⟨before, htokens⟩
  · intro xs hxs
    rw [hall.rest, List.append_assoc]
    exact hput _ xs (hxs.append ws)

end Parse

/-! ### Whole runs -/

/-- How many braces are open at least where statements stand. -/
def Mode.depth : Mode → Nat
  | .full => 2
  | .statements => 0

/-- Recovery keeps the braces: if those of the tokens match, and every one that opens among
statements is shielded, then in the tree every block and every class that has consumed its brace
ends at the brace that matches it, whatever errors there are. -/
theorem parse_keepsBraces {mode : Mode} {tokens : List Token}
    (hbalanced : Balanced (tokens.takeWhile (·.kind ≠ .eof)))
    (hshield : ShieldedFrom mode.depth (tokens.takeWhile (·.kind ≠ .eof))) :
    (parse mode tokens).root.KeepsBraces (tokens.takeWhile (·.kind ≠ .eof)) := by
  have hrest := Cursor.rest_ofTokens (ρ := .short) tokens
  have hstop := Cursor.kind_stop_ofTokens (ρ := .short) tokens
  obtain ⟨hlast, hcalm⟩ := Cursor.fields_ofTokens (ρ := .short) tokens
  rw [parse_short]
  cases mode with
  | full =>
    have hclasses := Parse.classes_whileMore hbalanced hshield hrest hstop hcalm
    have hlisten : (Parse.listen Parse.classes).Leads (.ofTokens tokens) fun x _ =>
        x.1 = (Parse.classes (.ofTokens tokens)).value := rfl
    have hprogram : Parse.program.Leads (.ofTokens tokens) fun x _ =>
        x.KeepsBraces (tokens.takeWhile (·.kind ≠ .eof)) := by
      apply Parse.leads_spanned
      apply hlisten.bind
      rintro ⟨xs, errors⟩ d rfl
      dsimp only
      split <;> exact hclasses
    exact hprogram
  | statements =>
    have hregion : (Cursor.ofTokens tokens).Region (tokens.takeWhile (·.kind ≠ .eof)) [] :=
      ⟨hrest.trans (List.append_nil _).symm, hbalanced,
        (fun _ h => absurd h (Option.not_mem_none _)), hstop, hcalm⟩
    have hwhole : ShieldedFrom 0 ([] ++ (tokens.takeWhile (·.kind ≠ .eof) ++ [])) := by
      rw [List.append_nil]
      exact hshield
    have hopen : Shielded none (tokens.takeWhile (·.kind ≠ .eof)) :=
      hwhole.inside (Nat.le_refl 0) hbalanced
    rw [← hlast] at hopen
    exact (Parse.blocks_atEnd hregion hopen).1

/-- `{ ) ;` and, on the next line, `{ x } }`: two broken statements in two blocks. -/
def brokenBlocks : List Token :=
  [⟨.lbrace, "\x7b", ⟨⟨1, 1⟩, ⟨1, 2⟩⟩, false⟩, ⟨.rparen, ")", ⟨⟨1, 3⟩, ⟨1, 4⟩⟩, false⟩,
    ⟨.semi, ";", ⟨⟨1, 5⟩, ⟨1, 6⟩⟩, false⟩, ⟨.lbrace, "\x7b", ⟨⟨2, 1⟩, ⟨2, 2⟩⟩, false⟩,
    ⟨.ident, "x", ⟨⟨2, 3⟩, ⟨2, 4⟩⟩, false⟩, ⟨.rbrace, "\x7d", ⟨⟨2, 5⟩, ⟨2, 6⟩⟩, false⟩,
    ⟨.rbrace, "\x7d", ⟨⟨2, 7⟩, ⟨2, 8⟩⟩, false⟩]

/-- Two errors, and both blocks end where they should. -/
theorem parse_keepsBraces_brokenBlocks :
    (parseStatements brokenBlocks).diagnostics.length = 2
      ∧ Balanced (brokenBlocks.takeWhile (·.kind ≠ .eof))
      ∧ ShieldedFrom Mode.statements.depth (brokenBlocks.takeWhile (·.kind ≠ .eof))
      ∧ (parse .statements brokenBlocks).root.KeepsBraces
        (brokenBlocks.takeWhile (·.kind ≠ .eof)) :=
  ⟨by decide, by decide, by decide, parse_keepsBraces (by decide) (by decide)⟩

/-- `{ ) { } }` on one line: a brace that nothing shields, behind a broken statement. -/
def unshieldedBlock : List Token :=
  [⟨.lbrace, "\x7b", ⟨⟨1, 1⟩, ⟨1, 2⟩⟩, false⟩, ⟨.rparen, ")", ⟨⟨1, 3⟩, ⟨1, 4⟩⟩, false⟩,
    ⟨.lbrace, "\x7b", ⟨⟨1, 5⟩, ⟨1, 6⟩⟩, false⟩, ⟨.rbrace, "\x7d", ⟨⟨1, 7⟩, ⟨1, 8⟩⟩, false⟩,
    ⟨.rbrace, "\x7d", ⟨⟨1, 9⟩, ⟨1, 10⟩⟩, false⟩]

/-- The broken statement goes on over the brace that opens, so that the block ends at the brace
that closes the inner one, and not at the last, which matches its own. -/
theorem block_ends_early : Balanced unshieldedBlock ∧ ∃ l mid r, unshieldedBlock = l :: mid ++ [r]
    ∧ l.kind = .lbrace ∧ Balanced mid ∧ r.kind = .rbrace
    ∧ ∃ s t, (parseStatements unshieldedBlock).root = .statements s [.block t []]
      ∧ t ≠ l.spanTo r :=
  ⟨by decide, unshieldedBlock[0], (unshieldedBlock.drop 1).take 3, unshieldedBlock[4], rfl, rfl,
    by decide, rfl, ⟨⟨1, 1⟩, ⟨1, 10⟩⟩, ⟨⟨1, 1⟩, ⟨1, 8⟩⟩, rfl, by decide⟩

end JavaPrimer

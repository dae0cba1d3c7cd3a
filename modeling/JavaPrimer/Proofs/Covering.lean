import JavaPrimer.Proofs.Outline

/-!
# Outlines that fit tokens

The tokens of a source come in the order of their places, and a kind with one spelling is spelled
so. Among such tokens it is enough to know the kind of a token to know what it covers.

* `Sourced` — tokens as a source has them;
* `Span.Fits`, `Outline.Fits` — what a span and an outline cover if the tokens are those of a
  source;
* `Outline.Fits.append`, `Outline.Fits.sign`, `Outline.Fits.ident`, `Outline.Fits.one`,
  `Outline.fits_each` — the rules by which outlines fit;
* `Expr.Takes` — an expression is read from some tokens, and its outline fits them.
-/

namespace JavaPrimer

/-- Tokens as a source has them: kinds with one spelling have it, and places are in order. -/
structure Sourced (ts : List Token) : Prop where
  spelled : ∀ t ∈ ts, ∀ entry ∈ keywords ++ operators, t.kind = entry.2 → t.value = entry.1
  ordered : InOrder ts

theorem Sourced.sublist {us ts : List Token} (h : Sourced ts) (hs : us.Sublist ts) :
    Sourced us :=
  ⟨fun t ht => h.spelled t (hs.subset ht), h.ordered.sublist hs⟩

/-- Among the tokens of a source a span goes over some of them. -/
def Span.Fits (s : Span) (ts : List Token) : Prop := Sourced ts → s.Over ts

theorem Span.fits_single (t : Token) : t.span.Fits [t] := fun _ => over_single t

theorem Span.Fits.join {s t : Span} {us vs : List Token} (hs : s.Fits us) (ms : List Token)
    (ht : t.Fits vs) : (s.through t).Fits (us ++ (ms ++ vs)) := by
  intro hall
  have hus := hall.sublist (List.sublist_append_left us (ms ++ vs))
  have hvs := hall.sublist ((List.sublist_append_right ms vs).trans
    (List.sublist_append_right us (ms ++ vs)))
  exact (hs hus).join ms (ht hvs)

namespace Outline

/-- Among the tokens of a source an outline covers some of them. -/
def Fits (o : Outline) (ts : List Token) : Prop := Sourced ts → o.Covers ts

theorem fits_done : done.Fits [] := fun _ => rfl

theorem Fits.append {o p : Outline} {us vs : List Token} (ho : o.Fits us) (hp : p.Fits vs) :
    (o ++ p).Fits (us ++ vs) := by
  intro hall
  have hus := hall.sublist (List.sublist_append_left us vs)
  have hvs := hall.sublist (List.sublist_append_right us vs)
  exact (ho hus).append (hp hvs)

theorem fits_token {t : Token} {k : Kind} {v : Text} (h : Sourced [t] → t.form = (k, v)) :
    (token k v done).Fits [t] :=
  fun hall => ⟨t, [], rfl, h hall, rfl⟩

/-- A token of a kind with one spelling. -/
theorem fits_sign (v : Text) {t : Token} {k : Kind} (hmem : (v, k) ∈ keywords ++ operators)
    (ht : t.kind = k) : (sign v).Fits [t] := by
  apply fits_token
  intro hall
  have hkind : kindOf v = k := kindOf_eq (v, k) hmem
  have hvalue : t.value = v := hall.spelled t List.mem_cons_self (v, k) hmem ht
  rw [Token.form, hkind, ht, hvalue]

theorem fits_ident {t : Token} {x : Ident} (ht : x.ReadFrom t) : (ident x).Fits [t] := by
  apply fits_token
  intro _
  rw [Token.form, ht.1, ht.2]

theorem Fits.sign {o : Outline} {us : List Token} (ho : o.Fits us) (v : Text) {t : Token}
    {k : Kind} (hmem : (v, k) ∈ keywords ++ operators) (ht : t.kind = k) :
    (Outline.sign v ++ o).Fits (t :: us) :=
  (fits_sign v hmem ht).append ho

theorem Fits.ident {o : Outline} {us : List Token} (ho : o.Fits us) {t : Token} {x : Ident}
    (ht : x.ReadFrom t) : (Outline.ident x ++ o).Fits (t :: us) :=
  (fits_ident ht).append ho

/-- What stands between two brackets. -/
theorem Fits.between {o : Outline} {us : List Token} (ho : o.Fits us) (vl vr : Text)
    {l r : Token} {kl kr : Kind} (hmeml : (vl, kl) ∈ keywords ++ operators) (hl : l.kind = kl)
    (hmemr : (vr, kr) ∈ keywords ++ operators) (hr : r.kind = kr) :
    (Outline.sign vl ++ (o ++ Outline.sign vr)).Fits (l :: (us ++ [r])) :=
  (ho.append (fits_sign vr hmemr hr)).sign vl hmeml hl

theorem Fits.one {o : Outline} {ts : List Token} (ho : o.Fits ts) (k : NodeKind) {s : Span}
    (hs : s.Fits ts) : (Outline.one k s o).Fits ts :=
  fun hall => ⟨ts, [], (List.append_nil ts).symm, hs hall, ho hall, rfl⟩

theorem fits_each {α : Type} {f : α → Outline} {xs : List α} {ts : List Token}
    (h : ReadEach (fun x us => (f x).Fits us) xs ts) : (each f xs).Fits ts := by
  induction xs generalizing ts with
  | nil =>
    rw [show ts = [] from h]
    exact fits_done
  | cons x xs ih =>
    obtain ⟨us, vs, rfl, hx, hxs⟩ := h
    exact hx.append (ih hxs)

/-- Tokens of kinds with one spelling each. -/
theorem fits_signs (ws : List Text) {ks : List Kind} {ts : List Token}
    (hks : List.Forall₂ (fun w k => (w, k) ∈ keywords ++ operators) ws ks)
    (hts : ts.map Token.kind = ks) : (each Outline.sign ws).Fits ts := by
  induction hks generalizing ts with
  | nil =>
    rw [List.map_eq_nil_iff.1 hts]
    exact fits_done
  | cons hw _ ih =>
    obtain ⟨t, us, rfl, ht, hus⟩ := List.map_eq_cons_iff.1 hts
    exact (ih hus).sign _ hw ht

/-- Things that are read one after another and fit have outlines that fit one after another. -/
theorem fits_readEach {α : Type} {P : α → List Token → Prop} {f : α → Outline} {xs : List α}
    {ts : List Token} (h : ReadEach (fun x us => P x us ∧ (f x).Fits us) xs ts) :
    ReadEach P xs ts ∧ (each f xs).Fits ts :=
  ⟨h.imp fun _ _ _ hx => hx.1, fits_each (h.imp fun _ _ _ hx => hx.2)⟩

/-- A node as a whole is covered by its span. -/
theorem Covers.over_one {k : NodeKind} {s : Span} {o : Outline} {ts : List Token}
    (h : (Outline.one k s o).Covers ts) : s.Over ts := by
  obtain ⟨us, vs, rfl, hs, -, rfl⟩ := h
  rwa [List.append_nil]

end Outline

/-! ### Keywords -/

/-- A keyword is spelled by its kind. -/
theorem Sourced.mem_keywords {t : Token} {ts : List Token} (hall : Sourced ts) (ht : t ∈ ts)
    (hk : t.kind.isKeyword = true) : (t.value, t.kind) ∈ keywords := by
  obtain ⟨entry, hentry, hkind⟩ := List.any_eq_true.1 hk
  have hkind : t.kind = entry.2 := (eq_of_beq hkind).symm
  have hv := hall.spelled t ht entry (List.mem_append_left _ hentry) hkind
  rw [hv, hkind]
  exact hentry

namespace Outline

theorem fits_keyword {t : Token} (hk : t.kind.isKeyword = true) : (sign t.value).Fits [t] := by
  intro hall
  have hmem := hall.mem_keywords List.mem_cons_self hk
  exact fits_sign t.value (List.mem_append_left _ hmem) rfl hall

theorem fits_keywords {ts : List Token} (hk : ∀ t ∈ ts, t.kind.isKeyword = true) :
    (each sign (ts.map Token.value)).Fits ts := by
  induction ts with
  | nil => exact fits_done
  | cons t ts ih =>
    obtain ⟨ht, hts⟩ := List.forall_mem_cons.1 hk
    exact (fits_keyword ht).append (ih hts)

end Outline

/-- A written type that is a single word. -/
theorem TypeSpec.fits_word {w : Token} (hw : w.kind.isTypeWord = true) {s : Span}
    (hs : s.Fits [w]) : (TypeSpec.outline ⟨s, w.value, false⟩).Fits [w] :=
  ((Outline.fits_keyword (Kind.isKeyword_of_isTypeWord hw)).append Outline.fits_done).one _ hs

/-- A written type with brackets. -/
theorem TypeSpec.fits_array {w l r : Token} (hw : w.kind.isTypeWord = true)
    (hl : l.kind = .lbracket) (hr : r.kind = .rbracket) {s : Span} (hs : s.Fits [w, l, r]) :
    (TypeSpec.outline ⟨s, w.value, true⟩).Fits [w, l, r] := by
  have hbrackets : (Outline.sign "[" ++ Outline.sign "]").Fits [l, r] :=
    (Outline.fits_sign "]" (by decide) hr).sign "[" (by decide) hl
  exact ((Outline.fits_keyword (Kind.isKeyword_of_isTypeWord hw)).append hbrackets).one _ hs

/-! ### Expressions -/

/-- An expression is read from some tokens, and its outline fits them. -/
def Expr.Takes (e : Expr) (ts : List Token) : Prop := e.ReadFrom ts ∧ e.outline.Fits ts

/-- An expression spans what it is read from. -/
theorem Expr.Takes.span {e : Expr} {ts : List Token} (h : e.Takes ts) : e.span.Fits ts := by
  intro hall
  have hcovers := h.2 hall
  cases e with
  | missing => exact h.1.elim
  | _ => exact hcovers.over_one

/-- The token of a literal. -/
theorem LiteralSort.form_eq {sort : LiteralSort} {t : Token} (hall : Sourced [t])
    (h : ofKind? t.kind = some sort) : t.form = (sort.kind t.value, t.value) := by
  have hword : ∀ k v, (Text.ofString v, k) ∈ keywords ++ operators → t.kind = k →
      t.kind = Outline.kindOf t.value := by
    intro k v hmem hk
    have hv := hall.spelled t List.mem_cons_self (Text.ofString v, k) hmem hk
    rw [hk, hv]
    exact (Outline.kindOf_eq (Text.ofString v, k) hmem).symm
  suffices hkind : t.kind = sort.kind t.value by rw [Token.form, ← hkind]
  cases hk : t.kind <;> rw [hk] at h <;> cases h
  · exact hk ▸ hword .kwTrue "true" (by decide) hk
  · exact hk ▸ hword .kwFalse "false" (by decide) hk
  · exact hk ▸ hword .kwNull "null" (by decide) hk
  all_goals rfl

/-! ### Larger parts -/

/-- A written type is read from some tokens, and its outline fits them. -/
def TypeSpec.Takes (x : TypeSpec) (ts : List Token) : Prop := x.ReadFrom ts ∧ x.outline.Fits ts

/-- A selector is read from some tokens, and its outline fits them. -/
def Selector.Takes (x : Selector) (ts : List Token) : Prop := x.ReadFrom ts ∧ x.outline.Fits ts

/-- Arguments are read from some tokens, and their outline fits them. -/
def ArgsTake (es : List Expr) (ts : List Token) : Prop :=
  argsReadFrom es ts ∧ (argsOutline es).Fits ts

/-- A statement is read from some tokens, and its outline fits them. -/
def Stmt.Takes (x : Stmt) (ts : List Token) : Prop := x.ReadFrom ts ∧ x.outline.Fits ts

/-- A method body is read from some tokens, and its outline fits them. -/
def Block.Takes (b : Block) (ts : List Token) : Prop := b.ReadFrom ts ∧ b.outline.Fits ts

/-- A member is read from some tokens, and its outline fits them. -/
def Member.Takes (x : Member) (ts : List Token) : Prop := x.ReadFrom ts ∧ x.outline.Fits ts

/-- A class is read from some tokens, and its outline fits them. -/
def ClassDecl.Takes (c : ClassDecl) (ts : List Token) : Prop := c.ReadFrom ts ∧ c.outline.Fits ts

/-- A whole tree is read from some tokens, and its outline fits them if there are any. -/
def Root.Takes (x : Root) (ts : List Token) : Prop :=
  x.ReadFrom ts ∧ (ts ≠ [] → x.outline.Fits ts)

/-- The front of a print statement. -/
theorem fits_printOutline {a b c d : Token} (h : spellsPrint [a, b, c, d] = true) :
    printOutline.Fits [a, b, c, d] := by
  have hword : ∀ {t : Token} {word : Text}, t.isWord word = true →
      Ident.ReadFrom ⟨word, .nowhere⟩ t := by
    intro t word hw
    simpa [Token.isWord, Ident.ReadFrom] using hw
  simp only [spellsPrint, Bool.and_eq_true, beq_iff_eq] at h
  obtain ⟨⟨⟨ha, hb⟩, hc⟩, hd⟩ := h
  have htail := (Outline.fits_sign "." (by decide) hd).ident (hword hc)
  exact (htail.sign "." (by decide) hb).ident (hword ha)

/-- An initializer that is there has its sign. -/
theorem initOutline_of_readFrom {init : Expr} {ts : List Token} (h : init.ReadFrom ts) :
    initOutline init = Outline.sign "=" ++ init.outline := by
  cases init with
  | missing => exact h.elim
  | _ => rfl

end JavaPrimer

import JavaPrimer.Token.Quoted

/-!
# Quoted literals in other surroundings

A quoted literal that ends with its quote is read again, whole and alone, in front of any text: an
escape looks at one glyph behind itself at most, and that glyph belongs to the literal.

* `takeWhile_again`, `takeWhile_take_again` — runs depend on one glyph behind them;
* `front_of_append_cons` — what does not have a glyph in it ends before that glyph;
* `readEscape_again` — so do escapes;
* `readUnits_again`, `Quoted.read_again` — closed literals are read again.
-/

namespace JavaPrimer

theorem takeWhile_again {p : Glyph → Bool} {d r r' : Text} (h : (d ++ r).takeWhile p = d)
    (hhead : r.head? = r'.head?) : (d ++ r').takeWhile p = d := by
  have hall : ∀ g ∈ d, p g = true := by
    rw [← h]
    exact List.all_eq_true.1 List.all_takeWhile
  rw [List.takeWhile_append_of_pos hall] at h ⊢
  have hnil : r.takeWhile p = [] := List.append_right_eq_self.1 h
  rw [List.append_right_eq_self]
  cases r' with
  | nil => rfl
  | cons g r' =>
    cases r with
    | nil => cases hhead
    | cons g' r =>
      obtain rfl : g' = g := Option.some.inj hhead
      cases hp : p g' with
      | false => exact List.takeWhile_cons_of_neg (by simp [hp])
      | true =>
        rw [List.takeWhile_cons_of_pos hp] at hnil
        cases hnil

theorem takeWhile_take_again {p : Glyph → Bool} {n : Nat} {d r r' : Text}
    (h : ((d ++ r).take n).takeWhile p = d) (hhead : r.head? = r'.head?) :
    ((d ++ r').take n).takeWhile p = d := by
  have hlen : d.length ≤ n := by
    have hle := (takeWhile_take_front p n (d ++ r)).length_le
    have hle' := (List.takeWhile_prefix p (l := (d ++ r).take n)).length_le
    rw [h, List.length_take] at hle'
    omega
  rw [List.take_append, List.take_of_length_le hlen] at h ⊢
  refine takeWhile_again h ?_
  cases hn : n - d.length with
  | zero => rw [List.take_zero, List.take_zero]
  | succ k => rw [List.head?_take, List.head?_take, hhead]

/-- A front without a glyph does not go over it. -/
theorem front_of_append_cons {v t more : Text} {g : Glyph} (h : v <+: t ++ g :: more)
    (hg : g ∉ v) : v <+: t := by
  rcases List.prefix_or_prefix_of_prefix h (List.prefix_append t (g :: more)) with hv | ⟨u, rfl⟩
  · exact hv
  · have hu := (List.prefix_append_right_inj t).1 h
    rcases List.prefix_cons_iff.1 hu with rfl | ⟨u', rfl, -⟩
    · simp
    · exact absurd (List.mem_append_right t List.mem_cons_self) hg

/-! ### Escapes -/

theorem readEscape_ne_nil (g : Glyph) (rest : Text) : (readEscape g rest).1 ≠ [] := by
  unfold readEscape
  split
  · exact List.cons_ne_nil g []
  split
  · next h => simp [readUnicode, h]
  split
  · next h => simp [h]
  · exact List.cons_ne_nil g []

theorem readUnicode_again {body r r' : Text} {fault : Option EscapeFault}
    (h : readUnicode (body ++ r) = (body, fault)) (hhead : r.head? = r'.head?) :
    readUnicode (body ++ r') = (body, fault) := by
  obtain ⟨hbody, hfault⟩ := Prod.mk.inj h
  generalize hm : (body ++ r).takeWhile (· = Glyph.scalar 'u') = marks at hbody hfault
  generalize hd : (((body ++ r).drop marks.length).take 4).takeWhile Glyph.isHex = digits
    at hbody hfault
  rw [← hbody, List.append_assoc] at hm hd ⊢
  rw [List.drop_left] at hd
  have hhead' : (digits ++ r).head? = (digits ++ r').head? := by
    rw [List.head?_append, List.head?_append, hhead]
  have hm' := takeWhile_again hm hhead'
  have hd' := takeWhile_take_again hd hhead
  simp only [readUnicode, hm', List.drop_left, hd', hfault]

/-- An escape is read again if the glyph behind it is the same. -/
theorem readEscape_again {e : Glyph} {more more' body r r' : Text} {fault : Option EscapeFault}
    (h : readEscape e more = (body, fault)) (hmore : e :: more = body ++ r)
    (hmore' : e :: more' = body ++ r') (hhead : r.head? = r'.head?) :
    readEscape e more' = (body, fault) := by
  unfold readEscape at h ⊢
  split at h
  · next hc =>
    rw [if_pos hc]
    exact h
  · next hc =>
    rw [if_neg hc]
    split at h
    · next hu =>
      rw [if_pos hu]
      rw [hmore] at h
      rw [hmore']
      exact readUnicode_again h hhead
    · next hu =>
      rw [if_neg hu]
      split at h
      · next ho =>
        rw [if_pos ho]
        obtain ⟨hbody, hfault⟩ := Prod.mk.inj h
        rw [hmore] at hbody
        rw [hmore', takeWhile_take_again hbody hhead, hfault]
      · next ho =>
        rw [if_neg ho]
        exact h

/-! ### Literals -/

/-- A closed literal is read again in front of any text. -/
theorem readUnits_again (quote : Glyph) (t : Text) (h : (readUnits quote t).2 = .closed)
    (b : Text) :
    readUnits quote ((readUnits quote t).1.flatMap LiteralUnit.text ++ quote :: b)
      = readUnits quote t := by
  fun_induction readUnits quote t with
  | case1 => cases h
  | case2 => cases h
  | case3 rest hline =>
    show readUnits quote (quote :: b) = ([], .closed)
    rw [readUnits.eq_def]
    simp only [hline, if_true, if_false, Bool.false_eq_true]
  | case4 => cases h
  | case5 => cases h
  | case6 e more hn body fault he hline hquote ih =>
    have ih := ih h
    -- the escape is not empty, so its first glyph still follows the backslash
    have hfront : body <+: e :: more := by
      have hf := readEscape_front e more
      rwa [he] at hf
    have hne : body ≠ [] := by
      have hb := readEscape_ne_nil e more
      rwa [he] at hb
    obtain ⟨r, hr⟩ := hfront
    obtain ⟨body', rfl⟩ : ∃ body', body = e :: body' := by
      cases body with
      | nil => exact absurd rfl hne
      | cons x body' =>
        obtain ⟨rfl, -⟩ := List.cons.inj hr
        exact ⟨body', rfl⟩
    have hdrop : (e :: more).drop (e :: body').length = r := by
      rw [← hr, List.drop_left]
    rw [hdrop] at ih h ⊢
    -- what follows the escape starts alike, with a unit or with the closing quote
    generalize hus : (readUnits quote r).1.flatMap LiteralUnit.text = us at ih
    have hhead : r.head? = (us ++ quote :: b).head? := by
      obtain ⟨z, hz⟩ := readUnits_front quote r
      rw [show (readUnits quote r).2 = .closed from h, hus] at hz
      rw [← hz]
      cases us <;> rfl
    have hagain : readEscape e (body' ++ (us ++ quote :: b)) = (e :: body', fault) :=
      readEscape_again he hr.symm rfl hhead
    simp only [consUnit, List.flatMap_cons, LiteralUnit.text, List.cons_append, List.append_assoc,
      hus]
    rw [readUnits.eq_def]
    simp only [hline, hquote, hn, if_true, if_false, hagain, consUnit, Bool.false_eq_true]
    rw [← List.cons_append, List.drop_left, ih]
  | case7 g rest hline hquote hslash ih =>
    have ih := ih h
    simp only [consUnit, List.flatMap_cons, LiteralUnit.text, List.cons_append, List.nil_append]
    rw [readUnits.eq_def]
    simp only [hline, hquote, hslash, if_false, ih, consUnit, Bool.false_eq_true]

theorem Quoted.read_again {quote : Glyph} {t : Text} (h : (Quoted.read quote t).ending = .closed)
    (b : Text) :
    Quoted.read quote ((Quoted.read quote t).text.tail ++ b) = Quoted.read quote t := by
  have hclosed : (readUnits quote t).2 = .closed := h
  have hagain := readUnits_again quote t hclosed b
  have htail : (Quoted.read quote t).text.tail ++ b
      = (readUnits quote t).1.flatMap LiteralUnit.text ++ quote :: b := by
    show (readUnits quote t).1.flatMap LiteralUnit.text ++ (readUnits quote t).2.text quote ++ b = _
    rw [hclosed, List.append_assoc]
    rfl
  rw [htail, Quoted.read, hagain]
  rfl

end JavaPrimer

import JavaPrimer.Command.Plan
import JavaPrimer.Proofs.LiteralGrammar
import JavaPrimer.Proofs.Reformatting

/-!
# The warning for dropped comments

Before a layout is given out, the source is scanned for comments, and the scan knows nothing of
tokens: it follows quotes, goes over what stands behind a backslash, and ends a literal with its
line. The lexer has other ideas of all of these. They are the same where nothing is wrong with the
source, since there every literal is closed on its line and no escape protects more than belongs to
it: the scan goes over each piece as over a whole, and stops at the comments.

* `byteCommentFollows`, `scansAlike` — the scan byte by byte, and that it makes no difference;
* `commentFollows_unit`, `commentFollows_literal`, `Lexeme.commentFollows` — what is passed over;
* `Piece.read_cases` — blanks, comments and what may be a token;
* `containsComment_eq_any` — the scan finds the comments of the lexer;
* `formatAnswer_warns` — the warning and the comments of source and layout.
-/

namespace JavaPrimer

/-! ### The scan over bytes -/

/-- Whether a comment starts in a byte string, inside a literal opened by `quote` or outside any. A
backslash protects one byte. -/
def byteCommentFollows (quote : Option UInt8) : List UInt8 → Bool
  | [] => false
  | b :: rest =>
    match quote with
    | some q =>
      if b = '\\'.toUInt8 then
        match rest with
        | [] => false
        | _ :: more => byteCommentFollows (some q) more
      else if b = q ∨ b = '\n'.toUInt8 then byteCommentFollows none rest
      else byteCommentFollows (some q) rest
    | none =>
      if b = '"'.toUInt8 ∨ b = '\''.toUInt8 then byteCommentFollows (some b) rest
      else if b = '/'.toUInt8 ∧ rest.head?.any (['/', '*'].map Char.toUInt8).contains then true
      else byteCommentFollows none rest

/-! ### One step of a scan -/

section Steps

variable {g e q : Glyph} {rest : Text}

theorem commentFollows_backslash :
    commentFollows (some q) (Glyph.scalar '\\' :: e :: rest) = commentFollows (some q) rest := by
  conv_lhs => rw [commentFollows.eq_def]
  exact if_pos rfl

theorem commentFollows_inside (hslash : g ≠ Glyph.scalar '\\') :
    commentFollows (some q) (g :: rest) = if g = q ∨ g = Glyph.scalar '\n' then
      commentFollows none rest else commentFollows (some q) rest := by
  conv_lhs => rw [commentFollows.eq_def]
  exact if_neg hslash

theorem commentFollows_outside : commentFollows none (g :: rest)
    = if g = Glyph.scalar '"' ∨ g = Glyph.scalar '\'' then commentFollows (some g) rest
      else if g = Glyph.scalar '/' ∧ rest.head?.any (Glyph.isOneOf ['/', '*']) then true
      else commentFollows none rest := by
  conv_lhs => rw [commentFollows.eq_def]

end Steps

section ByteSteps

variable {b e q : UInt8} {rest : List UInt8}

theorem byteCommentFollows_backslash :
    byteCommentFollows (some q) ('\\'.toUInt8 :: e :: rest) = byteCommentFollows (some q) rest := by
  conv_lhs => rw [byteCommentFollows.eq_def]
  exact if_pos rfl

theorem byteCommentFollows_inside (hslash : b ≠ '\\'.toUInt8) :
    byteCommentFollows (some q) (b :: rest) = if b = q ∨ b = '\n'.toUInt8 then
      byteCommentFollows none rest else byteCommentFollows (some q) rest := by
  conv_lhs => rw [byteCommentFollows.eq_def]
  exact if_neg hslash

theorem byteCommentFollows_outside : byteCommentFollows none (b :: rest)
    = if b = '"'.toUInt8 ∨ b = '\''.toUInt8 then byteCommentFollows (some b) rest
      else if b = '/'.toUInt8 ∧ rest.head?.any (['/', '*'].map Char.toUInt8).contains then true
      else byteCommentFollows none rest := by
  conv_lhs => rw [byteCommentFollows.eq_def]

end ByteSteps

/-! ### Glyphs and their bytes -/

theorem Glyph.isAscii_scalar {c : Char} : (Glyph.scalar c).isAscii = true ↔ c.toNat < 128 :=
  decide_eq_true_iff

theorem toNat_toUInt8 {c : Char} (hc : c.toNat < 128) : c.toUInt8.toNat = c.toNat := by
  show c.val.toNat % 256 = c.val.toNat
  exact Nat.mod_eq_of_lt (Nat.lt_trans hc (by decide))

theorem toUInt8_eq_iff {c d : Char} (hc : c.toNat < 128) (hd : d.toNat < 128) :
    c.toUInt8 = d.toUInt8 ↔ c = d := by
  rw [← UInt8.toNat_inj, toNat_toUInt8 hc, toNat_toUInt8 hd]
  exact ⟨fun h => Char.ext (UInt32.toNat_inj.1 h), congrArg Char.toNat⟩

/-- A character of one byte is written as that byte. -/
theorem Glyph.bytes_scalar {c : Char} (hc : c.toNat < 128) : (scalar c).bytes = [c.toUInt8] := by
  have hshort : c.val.toNat ≤ 127 := Nat.le_of_lt_succ hc
  unfold bytes String.utf8EncodeChar
  exact if_pos hshort

/-- The first glyph of a byte string is its first byte, or made of bytes that are no ASCII. -/
theorem Glyph.read_cases (b : UInt8) (rest : List UInt8) :
    (∃ c : Char, c.toNat < 128 ∧ b = c.toUInt8 ∧ read b rest = (scalar c, rest))
      ∨ (read b rest).1.isAscii = false
        ∧ ∃ xs, (∀ x ∈ b :: xs, 128 ≤ x.toNat) ∧ rest = xs ++ (read b rest).2 := by
  by_cases hb : b.toNat < 128
  · left
    have hvalue : (Char.ofNat b.toNat).toNat = b.toNat := by
      rw [Char.toNat_ofNat, if_pos (.inl (by omega))]
    have hascii : (Char.ofNat b.toNat).toNat < 128 := by omega
    have hbyte : b = (Char.ofNat b.toNat).toUInt8 := by
      rw [← UInt8.toNat_inj, toNat_toUInt8 hascii, hvalue]
    obtain ⟨b', hbytes, -, hread⟩ := read_ascii (isAscii_scalar.2 hascii)
    rw [bytes_scalar hascii, ← hbyte] at hbytes
    obtain rfl : b = b' := (List.cons.inj hbytes).1
    exact ⟨_, hascii, hbyte, hread rest⟩
  · right
    have hbytes := bytes_read b rest
    generalize (read b rest).1 = g at hbytes
    cases g with
    | stray b' =>
      obtain ⟨-, hrest⟩ := List.cons.inj hbytes
      exact ⟨rfl, [], List.forall_mem_singleton.2 (by omega), hrest.symm⟩
    | scalar c =>
      have htail := tail_utf8EncodeChar c
      cases henc : String.utf8EncodeChar c with
      | nil => exact absurd henc (String.utf8EncodeChar_ne_nil)
      | cons b' xs =>
        rw [bytes, henc, List.cons_append] at hbytes
        obtain ⟨rfl, hrest⟩ := List.cons.inj hbytes
        rw [henc, List.tail_cons] at htail
        refine ⟨Bool.eq_false_iff.2 fun h => ?_, xs,
          List.forall_mem_cons.2 ⟨by omega, htail⟩, hrest.symm⟩
        have hc : c.toNat < 128 := isAscii_scalar.1 h
        have hone := bytes_scalar hc
        rw [bytes, henc] at hone
        rw [(List.cons.inj hone).1, toNat_toUInt8 hc] at hb
        exact hb hc

/-- Bytes that are no ASCII are passed over. -/
theorem byteCommentFollows_append {quote : Option UInt8} (hquote : ∀ q ∈ quote, q.toNat < 128)
    {xs : List UInt8} (hxs : ∀ x ∈ xs, 128 ≤ x.toNat) (rest : List UInt8) :
    byteCommentFollows quote (xs ++ rest) = byteCommentFollows quote rest := by
  induction xs with
  | nil => rfl
  | cons x xs ih =>
    obtain ⟨hx, hxs⟩ := List.forall_mem_cons.1 hxs
    have hne : ∀ b : UInt8, b.toNat < 128 → x ≠ b := by
      rintro b hb rfl
      omega
    rw [List.cons_append, ← ih hxs]
    cases quote with
    | none =>
      rw [byteCommentFollows_outside, if_neg, if_neg]
      · exact fun h => hne '/'.toUInt8 (by decide) h.1
      · exact not_or.2 ⟨hne _ (by decide), hne _ (by decide)⟩
    | some q =>
      rw [byteCommentFollows_inside (hne _ (by decide)), if_neg]
      exact not_or.2 ⟨hne q (hquote q rfl), hne _ (by decide)⟩

/-- Both scans see the same behind a slash. -/
theorem any_head?_ofBytes (cs : List Char) (hcs : ∀ c ∈ cs, c.toNat < 128) (bytes : List UInt8) :
    bytes.head?.any (cs.map Char.toUInt8).contains
      = (Text.ofBytes bytes).head?.any (Glyph.isOneOf cs) := by
  cases bytes with
  | nil => rw [Text.ofBytes]; rfl
  | cons b rest =>
    rw [ofBytes_cons, List.head?_cons, List.head?_cons, Option.any_some, Option.any_some,
      Bool.eq_iff_iff, List.contains_iff_mem, List.mem_map]
    rcases Glyph.read_cases b rest with ⟨c, hc, rfl, hread⟩ | ⟨hascii, xs, hxs, -⟩
    · rw [hread]
      show _ ↔ cs.contains c = true
      rw [List.contains_iff_mem]
      constructor
      · rintro ⟨d, hd, h⟩
        rwa [← (toUInt8_eq_iff (hcs d hd) hc).1 h]
      · exact fun h => ⟨c, h, rfl⟩
    · refine iff_of_false ?_ fun h => ?_
      · rintro ⟨d, hd, rfl⟩
        have hle := hxs _ List.mem_cons_self
        rw [toNat_toUInt8 (hcs d hd)] at hle
        have := hcs d hd
        omega
      · obtain ⟨d, hd, hg⟩ := List.mem_map.1 (Glyph.mem_of_isOneOf h)
        rw [← hg, Glyph.isAscii_scalar.2 (hcs d hd)] at hascii
        cases hascii

/-- A glyph that is no ASCII is passed over. -/
theorem commentFollows_of_not_ascii {quote : Option Glyph} (hquote : ∀ q ∈ quote, q.isAscii = true)
    {g : Glyph} (hg : g.isAscii = false) (rest : Text) :
    commentFollows quote (g :: rest) = commentFollows quote rest := by
  have hne : ∀ g' : Glyph, g'.isAscii = true → g ≠ g' := by
    rintro g' hg' rfl
    rw [hg'] at hg
    cases hg
  cases quote with
  | none =>
    rw [commentFollows_outside, if_neg, if_neg]
    · exact fun h => hne '/' rfl h.1
    · exact not_or.2 ⟨hne _ rfl, hne _ rfl⟩
  | some q =>
    rw [commentFollows_inside (hne _ rfl), if_neg]
    exact not_or.2 ⟨hne q (hquote q rfl), hne _ rfl⟩

/-- Both scans give the same answer on a byte string, outside literals and inside. -/
structure ScansAlike (bytes : List UInt8) : Prop where
  outside : byteCommentFollows none bytes = commentFollows none (Text.ofBytes bytes)
  inside : ∀ q : Char, q = '"' ∨ q = '\'' →
    byteCommentFollows (some q.toUInt8) bytes
      = commentFollows (some (.scalar q)) (Text.ofBytes bytes)

namespace ScansAlike

theorem nil : ScansAlike [] := by
  constructor
  · rw [Text.ofBytes]
    rfl
  · intro q hq
    rw [Text.ofBytes]
    rfl

/-- A glyph of several bytes. -/
theorem cons_of_not_ascii {b : UInt8} {rest : List UInt8} (h : ScansAlike (Glyph.read b rest).2)
    {xs : List UInt8} (hg : (Glyph.read b rest).1.isAscii = false)
    (hxs : ∀ x ∈ b :: xs, 128 ≤ x.toNat) (hrest : rest = xs ++ (Glyph.read b rest).2) :
    ScansAlike (b :: rest) := by
  have hbytes : b :: rest = (b :: xs) ++ (Glyph.read b rest).2 := congrArg (b :: ·) hrest
  constructor
  · rw [ofBytes_cons, commentFollows_of_not_ascii (by simp) hg, ← h.outside]
    conv_lhs => rw [hbytes]
    exact byteCommentFollows_append (by simp) hxs _
  · intro q hq
    have hascii : q.toNat < 128 := by rcases hq with rfl | rfl <;> decide
    rw [ofBytes_cons, commentFollows_of_not_ascii _ hg, ← h.inside q hq]
    · conv_lhs => rw [hbytes]
      refine byteCommentFollows_append (fun b hb => ?_) hxs _
      obtain rfl := Option.some.inj hb
      rwa [toNat_toUInt8 hascii]
    · intro g hg
      obtain rfl := Option.some.inj hg
      exact Glyph.isAscii_scalar.2 hascii

/-- A glyph of one byte. Behind a backslash one scan goes over a byte and the other over a glyph,
whose other bytes then mean nothing. -/
theorem cons_ascii {c : Char} (hc : c.toNat < 128) {rest : List UInt8} (h : ScansAlike rest)
    (hnext : ∀ e more, rest = e :: more → ScansAlike (Glyph.read e more).2)
    (hread : Glyph.read c.toUInt8 rest = (Glyph.scalar c, rest)) :
    ScansAlike (c.toUInt8 :: rest) := by
  have hsame : ∀ d : Char, d.toNat < 128 →
      (c.toUInt8 = d.toUInt8 ↔ Glyph.scalar c = Glyph.scalar d) := by
    intro d hd
    rw [toUInt8_eq_iff hc hd, Glyph.scalar.injEq]
  constructor
  · have hopens := or_congr (hsame '"' (by decide)) (hsame '\'' (by decide))
    have hslash := hsame '/' (by decide)
    have hhead := any_head?_ofBytes ['/', '*'] (by simp) rest
    rw [ofBytes_cons, hread, byteCommentFollows_outside, commentFollows_outside, hhead, h.outside]
    simp only [hopens, hslash]
    by_cases hquote : Glyph.scalar c = Glyph.scalar '"' ∨ Glyph.scalar c = Glyph.scalar '\''
    · rw [if_pos hquote, if_pos hquote, h.inside c (by simpa using hquote)]
    · rw [if_neg hquote, if_neg hquote]
  · intro q hq
    have hascii : q.toNat < 128 := by rcases hq with rfl | rfl <;> decide
    rw [ofBytes_cons, hread]
    by_cases hslash : c = '\\'
    · subst hslash
      cases rest with
      | nil =>
        rw [Text.ofBytes]
        rfl
      | cons e more =>
        have hmore := hnext e more rfl
        rw [ofBytes_cons, byteCommentFollows_backslash, commentFollows_backslash,
          ← hmore.inside q hq]
        rcases Glyph.read_cases e more with ⟨d, hd, rfl, hread'⟩ | ⟨-, ys, hys, hys'⟩
        · rw [hread']
        · conv_lhs => rw [hys']
          refine byteCommentFollows_append (fun b hb => ?_) (List.forall_mem_cons.1 hys).2 _
          obtain rfl := Option.some.inj hb
          rwa [toNat_toUInt8 hascii]
    · have hbyte : c.toUInt8 ≠ '\\'.toUInt8 := mt (toUInt8_eq_iff hc (by decide)).1 hslash
      have hglyph : Glyph.scalar c ≠ Glyph.scalar '\\' := mt Glyph.scalar.inj hslash
      have hcloses := or_congr (hsame q hascii) (hsame '\n' (by decide))
      rw [byteCommentFollows_inside hbyte, commentFollows_inside hglyph, h.outside, h.inside q hq]
      simp only [hcloses]

end ScansAlike

/-- It makes no difference whether the scan goes by bytes or by glyphs. -/
theorem scansAlike (bytes : List UInt8) : ScansAlike bytes := by
  cases bytes with
  | nil => exact .nil
  | cons b rest =>
    have hlength := Glyph.length_read_le b rest
    rcases Glyph.read_cases b rest with ⟨c, hc, rfl, hread⟩ | ⟨hg, xs, hxs, hrest⟩
    · refine .cons_ascii hc (scansAlike rest) (fun e more hrest => ?_) hread
      have hlength' := Glyph.length_read_le e more
      have hlength'' := congrArg List.length hrest
      rw [List.length_cons] at hlength''
      exact scansAlike (Glyph.read e more).2
    · exact .cons_of_not_ascii (scansAlike _) hg hxs hrest
termination_by bytes.length
decreasing_by all_goals simp only [List.length_cons] at *; omega

/-! ### What is passed over -/

/-- Outside literals, what has no quote and no slash in it. -/
theorem commentFollows_plain {v : Text} (hv : ∀ g ∈ v, g.isOneOf ['"', '\'', '/'] = false)
    (rest : Text) : commentFollows none (v ++ rest) = commentFollows none rest := by
  induction v with
  | nil => rfl
  | cons g v ih =>
    obtain ⟨hg, hv⟩ := List.forall_mem_cons.1 hv
    have hne : ∀ g' : Glyph, g'.isOneOf ['"', '\'', '/'] = true → g ≠ g' := by
      rintro g' hg' rfl
      rw [hg'] at hg
      cases hg
    rw [List.cons_append, commentFollows_outside, if_neg, if_neg, ih hv]
    · exact fun h => hne '/' rfl h.1
    · exact not_or.2 ⟨hne _ rfl, hne _ rfl⟩

/-- A slash that opens no comment. -/
theorem commentFollows_slash {rest : Text} (h : ∀ x ∈ rest.head?, x.isOneOf ['/', '*'] = false) :
    commentFollows none (Glyph.scalar '/' :: rest) = commentFollows none rest := by
  rw [commentFollows_outside, if_neg (by decide), if_neg]
  rintro ⟨-, hany⟩
  obtain ⟨x, hx, hone⟩ := (Option.any_eq_true _ _).1 hany
  rw [h x hx] at hone
  cases hone

section Literals

variable {quote : Glyph} (hquote : quote.isOneOf ['"', '\''] = true)

/-- Inside a literal, what has neither its quote in it, nor a backslash, nor a line feed. -/
theorem commentFollows_content {v : Text}
    (hv : ∀ g ∈ v, g ≠ quote ∧ g ≠ Glyph.scalar '\\' ∧ g ≠ Glyph.scalar '\n') (rest : Text) :
    commentFollows (some quote) (v ++ rest) = commentFollows (some quote) rest := by
  induction v with
  | nil => rfl
  | cons g v ih =>
    obtain ⟨⟨hq, hslash, hline⟩, hv⟩ := List.forall_mem_cons.1 hv
    rw [List.cons_append, commentFollows_inside hslash, if_neg (not_or.2 ⟨hq, hline⟩), ih hv]

include hquote in
/-- A class of glyphs that end no literal. -/
theorem ne_of_class_of_quote {p : Glyph → Bool} (hdouble : p '"' = false) (hsingle : p '\'' = false)
    (hslash : p '\\' = false) (hline : p '\n' = false) {g : Glyph} (hg : p g = true) :
    g ≠ quote ∧ g ≠ Glyph.scalar '\\' ∧ g ≠ Glyph.scalar '\n' := by
  refine ⟨?_, Glyph.ne_of_class hg hslash, Glyph.ne_of_class hg hline⟩
  rcases Glyph.eq_or_eq_of_isOneOf hquote with rfl | rfl
  · exact Glyph.ne_of_class hg hdouble
  · exact Glyph.ne_of_class hg hsingle

include hquote in
/-- A unit of a literal: what a backslash protects is one glyph, and no other glyph of an escape
could end the literal. -/
theorem commentFollows_unit {u : Text} (hu : Text.IsUnit quote u) (rest : Text) :
    commentFollows (some quote) (u ++ rest) = commentFollows (some quote) rest := by
  cases hu with
  | plain hq hslash hline =>
    refine commentFollows_content (List.forall_mem_singleton.2 ⟨hq, hslash, ?_⟩) rest
    rintro rfl
    cases hline
  | letter hg => exact commentFollows_backslash
  | @octal ds hone hthree hds =>
    cases ds with
    | nil => cases hone
    | cons d ds =>
      rw [List.cons_append, List.cons_append, commentFollows_backslash]
      refine commentFollows_content (fun g hg => ?_) rest
      exact ne_of_class_of_quote hquote rfl rfl rfl rfl (hds g (List.mem_cons_of_mem d hg))
  | @unicode marks ds hone hmarks hfour hds =>
    cases marks with
    | nil => cases hone
    | cons m marks =>
      rw [List.cons_append, List.cons_append, List.cons_append, commentFollows_backslash,
        List.append_assoc, commentFollows_content, commentFollows_content]
      · exact fun g hg => ne_of_class_of_quote hquote rfl rfl rfl rfl (hds g hg)
      · intro g hg
        obtain rfl := hmarks g (List.mem_cons_of_mem m hg)
        exact ne_of_class_of_quote (p := Glyph.isWordStart) hquote rfl rfl rfl rfl rfl

include hquote in
/-- A literal of the grammar. -/
theorem commentFollows_literal {v : Text} (hv : v.IsLiteral quote) (rest : Text) :
    commentFollows none (v ++ rest) = commentFollows none rest := by
  obtain ⟨us, hus, -, rfl⟩ := hv
  have hopens : quote = Glyph.scalar '"' ∨ quote = Glyph.scalar '\'' :=
    Glyph.eq_or_eq_of_isOneOf hquote
  rw [List.cons_append, commentFollows_outside, if_pos hopens, List.append_assoc]
  induction us with
  | nil =>
    have hslash : quote ≠ Glyph.scalar '\\' := by rcases hopens with rfl | rfl <;> decide
    rw [List.flatten_nil, List.nil_append, List.singleton_append, commentFollows_inside hslash,
      if_pos (.inl rfl)]
  | cons u us ih =>
    obtain ⟨hu, hus⟩ := List.forall_mem_cons.1 hus
    rw [List.flatten_cons, List.append_assoc, commentFollows_unit hquote hu, ih hus]

end Literals

/-- A numeral has no quote and no slash in it. -/
theorem Numeral.WellFormed.isOneOf {n : Numeral} (h : n.WellFormed) :
    ∀ g ∈ n.text, g.isOneOf ['"', '\'', '/'] = false := by
  have hdigits : ∀ {ds : Text}, (∀ g ∈ ds, g.isDigit = true) →
      ∀ g ∈ ds, g.isOneOf ['"', '\'', '/'] = false :=
    fun hds g hg => Glyph.not_isOneOf (hds g hg) (by decide)
  intro g hg
  rw [text, List.mem_append, List.mem_append, List.mem_append] at hg
  rcases hg with ((hg | hg) | hg) | hg
  · exact hdigits h.whole g hg
  · rcases h.fraction with hnil | ⟨ds, hds, hall⟩
    · rw [hnil] at hg
      cases hg
    · rw [hds] at hg
      rcases List.mem_cons.1 hg with rfl | hg
      · rfl
      · exact hdigits hall g hg
  · rcases h.exponent with hnil | ⟨m, s, ds, hexp, hmark, hsign, hall⟩
    · rw [hnil] at hg
      cases hg
    · rw [hexp, List.mem_cons, List.mem_append] at hg
      rcases hg with rfl | hg | hg
      · exact Glyph.not_isOneOf (p := Glyph.isMark) hmark (by decide)
      · rcases hsign with rfl | ⟨c, rfl, hc⟩
        · cases hg
        · rw [List.mem_singleton.1 hg]
          exact Glyph.not_isOneOf (p := Glyph.isSign) hc (by decide)
      · exact hdigits hall g hg
  · rcases h.suffix with hnil | ⟨c, hc, hsuffix⟩
    · rw [hnil] at hg
      cases hg
    · rw [hc] at hg
      rw [List.mem_singleton.1 hg]
      rcases hsuffix with hfloat | ⟨-, -, hlong⟩
      · exact Glyph.not_isOneOf (p := Glyph.isFloatSuffix) hfloat (by decide)
      · exact Glyph.not_isOneOf (p := Glyph.isLongSuffix) hlong (by decide)

/-- No operator but the slash opens a comment. -/
theorem operators_slash : ∀ entry ∈ operators, entry.1.all (!·.isOneOf ['"', '\'', '/']) = true
    ∨ entry.1 = Text.ofString "/" ∨ entry.1 = Text.ofString "/=" := by decide

/-- A lexeme, if it is no slash that opens a comment together with what follows. -/
theorem Lexeme.commentFollows {k : Kind} {v : Text} (h : Lexeme k v) {rest : Text}
    (hslash : v = Text.ofString "/" → ∀ x ∈ rest.head?, x.isOneOf ['/', '*'] = false) :
    commentFollows none (v ++ rest) = JavaPrimer.commentFollows none rest := by
  cases h with
  | @word g r hg hr =>
    refine commentFollows_plain (fun x hx => ?_) rest
    have hpart : x.isWordPart = true := by
      rcases List.mem_cons.1 hx with rfl | hx
      · rw [Glyph.isWordPart, hg, Bool.true_or]
      · exact hr x hx
    exact Glyph.not_isOneOf hpart (by decide)
  | numeral hn hstart => exact commentFollows_plain hn.isOneOf rest
  | quoted hquote hok =>
    exact commentFollows_literal hquote ((Quoted.faultless_iff hquote _ .origin).1 (hok _)) rest
  | operator hv =>
    rcases operators_slash _ hv with hplain | rfl | rfl
    · refine commentFollows_plain (fun g hg => ?_) rest
      simpa using List.all_eq_true.1 hplain g hg
    · exact commentFollows_slash (hslash rfl)
    · have hequals : ∀ g ∈ [Glyph.scalar '='], g.isOneOf ['"', '\'', '/'] = false := by decide
      exact (commentFollows_slash (by simp; rfl)).trans (commentFollows_plain hequals rest)

/-! ### Pieces -/

namespace Piece

theorem readOperator_cases (g : Glyph) (rest : Text) :
    (∃ f, (readOperator g rest).form? = some f) ∨ readOperator g rest = unknown g := by
  unfold readOperator
  split
  · exact .inl ⟨_, rfl⟩
  · exact .inr rfl

/-- The pieces that can stand at the front of a text: a blank, a comment, or what may be a token. -/
theorem read_cases (g : Glyph) (rest : Text) :
    (g.isGap = true ∧ read g rest = blank g)
      ∨ ((g = Glyph.scalar '/' ∧ rest.head?.any (Glyph.isOneOf ['/', '*']) = true)
        ∧ (read g rest).isComment = true)
      ∨ (¬ (g = Glyph.scalar '/' ∧ rest.head?.any (Glyph.isOneOf ['/', '*']) = true)
        ∧ ((∃ f, (read g rest).form? = some f) ∨ read g rest = unknown g)) := by
  by_cases hgap : g.isGap = true
  · exact .inl ⟨hgap, if_pos hgap⟩
  by_cases hline : g = Glyph.scalar '/' ∧ rest.head? = some (Glyph.scalar '/')
  · obtain ⟨rfl, hr⟩ := hline
    obtain ⟨more, rfl⟩ := List.head?_eq_some_iff.1 hr
    exact .inr (.inl ⟨⟨rfl, rfl⟩, rfl⟩)
  by_cases hblock : g = Glyph.scalar '/' ∧ rest.head? = some (Glyph.scalar '*')
  · obtain ⟨rfl, hr⟩ := hblock
    obtain ⟨more, rfl⟩ := List.head?_eq_some_iff.1 hr
    exact .inr (.inl ⟨⟨rfl, rfl⟩, rfl⟩)
  · refine .inr (.inr ⟨?_, ?_⟩)
    · rintro ⟨hg, hany⟩
      obtain ⟨x, hx, hone⟩ := (Option.any_eq_true _ _).1 hany
      rcases Glyph.eq_or_eq_of_isOneOf hone with rfl | rfl
      · exact hline ⟨hg, hx⟩
      · exact hblock ⟨hg, hx⟩
    · simp only [read, hgap, hline, hblock, if_false, Bool.false_eq_true]
      split
      · exact .inl ⟨_, rfl⟩
      split
      · exact .inl ⟨_, rfl⟩
      split
      · exact .inl ⟨_, rfl⟩
      · exact readOperator_cases g rest

end Piece

/-- On a text without lexical errors the scan finds a comment exactly if there is one among the
pieces. -/
theorem containsComment_eq_any {t : Text} (h : (lex t).diagnostics = []) :
    containsComment t = (pieces t).any Piece.isComment := by
  have hok := (placed_diagnostics .origin (pieces t)).1 h
  clear h
  rw [containsComment]
  fun_induction pieces t with
  | case1 => rfl
  | case2 g rest ih =>
    obtain ⟨hread, hok⟩ := List.forall_mem_cons.1 hok
    rw [List.any_cons, ← ih hok]
    have hfront := List.prefix_iff_eq_append.1 (Piece.text_front g rest)
    generalize (g :: rest).drop (Piece.read g rest).text.length = after at hfront
    rcases Piece.read_cases g rest with ⟨hgap, hblank⟩ | ⟨hstart, hcomment⟩ | ⟨hstart, hform⟩
    · rw [hblank] at hfront ⊢
      have hplain : ∀ x ∈ [g], x.isOneOf ['"', '\'', '/'] = false :=
        List.forall_mem_singleton.2 (Glyph.not_isOneOf hgap (by decide))
      have hnot : (Piece.blank g).isComment = false := rfl
      rw [← hfront, hnot, Bool.false_or]
      exact commentFollows_plain hplain after
    · obtain ⟨rfl, hhead⟩ := hstart
      rw [hcomment, Bool.true_or, commentFollows_outside, if_neg (by decide), if_pos ⟨rfl, hhead⟩]
    · rcases hform with ⟨⟨k, v⟩, hform⟩ | hunknown
      · rw [Piece.not_isComment_of_form? hform, Bool.false_or, ← hfront, Piece.text_of_form? hform]
        rw [Piece.text_of_form? hform] at hfront
        refine (lexeme_of_read hform hread).commentFollows ?_
        -- a slash alone is followed by what the piece was read in front of
        rintro rfl x hx
        obtain ⟨rfl, rfl⟩ := List.cons.inj hfront
        cases hone : x.isOneOf ['/', '*'] with
        | false => rfl
        | true => exact absurd ⟨rfl, (Option.any_eq_true _ _).2 ⟨x, hx, hone⟩⟩ hstart
      · rw [hunknown] at hread
        cases hread .origin

/-! ### The warning -/

/-- A layout has no comments in it. -/
theorem no_comment_of_reformat {mode : Mode} {source layout : Text}
    (h : reformat mode source = .ok layout) : ∀ x ∈ pieces layout, x.isComment = false := by
  obtain ⟨hclean, rfl⟩ := reformat_ok_iff.1 h
  obtain ⟨-, -, -, -, hspelled, -⟩ := spelled_of_clean hclean
  have hcut := Root.cutInto_layout (hspelled.mono Operands.asRead_within)
  exact fun x hx => (hcut.of_pieces.2 x hx).2

/-- Whether a layout goes to a file or not, the warning depends on the source alone. -/
theorem stderr_formatAnswer {o : Options} {source layout : Text}
    (h : reformat o.mode source = .ok layout) (filename : Text) :
    (Plan.formatAnswer o filename source).stderr
      = if containsComment source then Plan.commentWarning else [] := by
  unfold Plan.formatAnswer
  rw [h]
  dsimp only
  split <;> rfl

/-- The warning for dropped comments is right. The scan for comments gives the same answer byte by
byte as glyph by glyph. Where the lexer has nothing to report, it finds a comment exactly if the lexer
goes over one. So what is laid out is laid out with a warning exactly if there is a comment in the
source, and none of its comments is in the layout. -/
theorem formatAnswer_warns (bytes : List UInt8) (h : (lex (.ofBytes bytes)).diagnostics = []) :
    byteCommentFollows none bytes = containsComment (.ofBytes bytes)
      ∧ (byteCommentFollows none bytes = true
        ↔ ∃ x ∈ pieces (.ofBytes bytes), x.isComment = true)
      ∧ ∀ (o : Options) (filename layout : Text), reformat o.mode (.ofBytes bytes) = .ok layout →
        ((Plan.formatAnswer o filename (.ofBytes bytes)).stderr = Plan.commentWarning
            ↔ ∃ x ∈ pieces (.ofBytes bytes), x.isComment = true)
          ∧ ((Plan.formatAnswer o filename (.ofBytes bytes)).stderr = []
            ↔ ∀ x ∈ pieces (.ofBytes bytes), x.isComment = false)
          ∧ ∀ x ∈ pieces layout, x.isComment = false := by
  have hscan : containsComment (.ofBytes bytes) = true
      ↔ ∃ x ∈ pieces (.ofBytes bytes), x.isComment = true := by
    rw [containsComment_eq_any h, List.any_eq_true]
  have hbytes := (scansAlike bytes).outside
  refine ⟨hbytes, hbytes ▸ hscan, fun o filename layout hlayout => ?_⟩
  have hwarning : Plan.commentWarning ≠ [] := List.cons_ne_nil _ _
  rw [stderr_formatAnswer hlayout]
  refine ⟨?_, ?_, no_comment_of_reformat hlayout⟩
  · rw [← hscan]
    cases containsComment (.ofBytes bytes) with
    | true => exact iff_of_true rfl rfl
    | false => exact iff_of_false hwarning.symm Bool.false_ne_true
  · have hnone : (∀ x ∈ pieces (.ofBytes bytes), x.isComment = false)
        ↔ ¬ containsComment (.ofBytes bytes) = true := by
      rw [hscan]
      simp
    rw [hnone]
    cases containsComment (.ofBytes bytes) with
    | true => exact iff_of_false hwarning fun hfalse => hfalse rfl
    | false => exact iff_of_true rfl Bool.false_ne_true

/-- A literal with the mark of a comment in it, and a comment behind: `x = "//"; /* y */`. -/
theorem formatAnswer_warns_behind_literal :
    reformat .statements (.ofBytes (Text.toBytes "x = \"//\"; /* y */"))
        = .ok (Text.ofString "x = \"//\";\n")
      ∧ byteCommentFollows none (Text.toBytes "x = \"//\"; /* y */") = true
      ∧ (Plan.formatAnswer { mode := .statements } "<stdin>"
          (.ofBytes (Text.toBytes "x = \"//\"; /* y */"))).stderr = Plan.commentWarning := by
  have hsource : Text.ofBytes (Text.toBytes "x = \"//\"; /* y */") = "x = \"//\"; /* y */" := by
    have hascii := Text.ofBytes_ascii (v := "x = \"//\"; /* y */") (by decide) []
    rwa [List.append_nil, Text.ofBytes, List.append_nil] at hascii
  have hlex : lex "x = \"//\"; /* y */" = ⟨[⟨.ident, "x", ⟨⟨1, 1⟩, ⟨1, 2⟩⟩, false⟩,
      ⟨.equals, "=", ⟨⟨1, 3⟩, ⟨1, 4⟩⟩, false⟩, ⟨.stringLit, "\"//\"", ⟨⟨1, 5⟩, ⟨1, 9⟩⟩, false⟩,
      ⟨.semi, ";", ⟨⟨1, 9⟩, ⟨1, 10⟩⟩, false⟩, .endOfInput ⟨1, 18⟩], []⟩ := by cbv
  have hpieces : (pieces "x = \"//\"; /* y */").any Piece.isComment = true := by cbv
  have hok : reformat .statements "x = \"//\"; /* y */" = .ok (Text.ofString "x = \"//\";\n") := by
    rw [reformat_ok_iff, analyze, hlex]
    exact ⟨rfl, rfl⟩
  rw [← hsource] at hlex hpieces hok
  obtain ⟨-, hscan, hanswer⟩ := formatAnswer_warns (Text.toBytes "x = \"//\"; /* y */")
    (congrArg Lexed.diagnostics hlex)
  have hcomment := List.any_eq_true.1 hpieces
  exact ⟨hok, hscan.2 hcomment, (hanswer { mode := .statements } "<stdin>" _ hok).1.2 hcomment⟩

end JavaPrimer

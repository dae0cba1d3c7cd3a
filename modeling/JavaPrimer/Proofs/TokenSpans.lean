import JavaPrimer.Proofs.CarriageReturns
import JavaPrimer.Proofs.Places
import Mathlib.Data.List.DropRight

/-!
# Exact spans

Where a token stands can be told from the bytes in front of it alone: its line counts the line
feeds among them, and its column the decoding steps behind the last of these. The lexer carries
lines and columns along glyph by glyph instead, so both counts are shown to agree at every place
where a glyph ends.

* `Text.Decoded` — texts that their bytes are decoded to; what a byte string is decoded to is one,
  and so is each part of it;
* `Text.ofBytes_append_ascii` — a character of one byte divides what is decoded;
* `Position.behind` — the place behind a byte string, by counting;
* `Text.Decoded.advance` — reading a text goes to the place behind its bytes;
* `Piece.not_mem_of_isToken` — no token has a line feed in it;
* `leads` — the tokens with the bytes in front of each;
* `Token.Located` — a token stands where its bytes do;
* `located_of_read`, `exists_read_of_mem` — what is read as a token does, and every token was read;
* `lex_located` — all tokens of a byte string do, one behind the other.
-/

namespace JavaPrimer

/-! ### Decoding a part of a byte string -/

/-- The first byte of a character tells how many follow it. -/
theorem length_tail_utf8EncodeChar {c : Char} {b : UInt8} {tail : List UInt8}
    (h : String.utf8EncodeChar c = b :: tail) : tail.length = Glyph.tailLength b := by
  have hlead : ∀ n : Nat, n < 256 → (UInt8.ofNat n).toNat = n := by
    intro n hn
    rw [UInt8.toNat_ofNat', Nat.mod_eq_of_lt hn]
  unfold Glyph.tailLength
  simp only [UInt8.lt_iff_toNat_lt, UInt8.reduceToNat]
  unfold String.utf8EncodeChar at h
  dsimp only at h
  split at h
  · obtain ⟨rfl, rfl⟩ := List.cons.inj h
    rw [hlead _ (by omega), if_pos (by omega)]
    rfl
  split at h
  · obtain ⟨rfl, rfl⟩ := List.cons.inj h
    rw [hlead _ (by omega), if_neg (by omega), if_pos (by omega)]
    rfl
  split at h
  · obtain ⟨rfl, rfl⟩ := List.cons.inj h
    rw [hlead _ (by omega), if_neg (by omega), if_neg (by omega), if_pos (by omega)]
    rfl
  · obtain ⟨rfl, rfl⟩ := List.cons.inj h
    rw [hlead _ (by omega), if_neg (by omega), if_neg (by omega), if_neg (by omega)]
    rfl

namespace Glyph

/-- One decoding step does not look behind the glyph that it reads: without the bytes there it
reads the same glyph. -/
theorem read_front {b : UInt8} {xs ys zs : List UInt8} (h : (read b (xs ++ zs)).2 = ys ++ zs) :
    read b xs = ((read b (xs ++ zs)).1, ys) := by
  cases zs with
  | nil =>
    simp only [List.append_nil] at h ⊢
    rw [← h]
  | cons z zs =>
    by_cases hlong : tailLength b ≤ xs.length
    · -- the whole tail is in front of the cut
      have htake : (xs ++ z :: zs).take (tailLength b) = xs.take (tailLength b) :=
        List.take_append_of_le_length hlong
      have hdrop : (xs ++ z :: zs).drop (tailLength b) = xs.drop (tailLength b) ++ z :: zs :=
        List.drop_append_of_le_length hlong
      simp only [read, htake, hdrop] at h ⊢
      split at h
      · next henc => rw [if_pos henc, if_pos henc, List.append_cancel_right h]
      · next henc => rw [if_neg henc, if_neg henc, List.append_cancel_right h]
    · -- a character would reach behind the cut, so the byte is read alone
      have hshort : ¬ String.utf8EncodeChar (candidate b (xs.take (tailLength b)))
          = b :: xs.take (tailLength b) := by
        intro henc
        have hlength := length_tail_utf8EncodeChar henc
        rw [List.length_take] at hlength
        omega
      simp only [read] at h ⊢
      split at h
      · have hlength := congrArg List.length h
        simp only [List.length_drop, List.length_append, List.length_cons] at hlength
        omega
      · next henc => rw [if_neg hshort, if_neg henc, List.append_cancel_right h]

theorem read_ne_stray (b : UInt8) (rest : List UInt8) : (read b rest).1 ≠ stray 10 := by
  intro h
  have hbytes := bytes_read b rest
  rw [h] at hbytes
  obtain rfl : (10 : UInt8) = b := (List.cons.inj hbytes).1
  have hlf : (read 10 rest).1 = scalar '\n' := rfl
  rw [hlf] at h
  cases h

/-- Only the line feed is written as the byte ten. -/
theorem eq_of_utf8EncodeChar {c : Char} (h : String.utf8EncodeChar c = [10]) : c = '\n' := by
  unfold String.utf8EncodeChar at h
  dsimp only at h
  split at h
  · have hbyte := congrArg UInt8.toNat (List.cons.inj h).1
    rw [UInt8.toNat_ofNat', Nat.mod_eq_of_lt (by omega)] at hbyte
    exact Char.ext (UInt32.toNat_inj.1 hbyte)
  split at h
  · cases (List.cons.inj h).2
  split at h <;> cases (List.cons.inj h).2

/-- Only the line feed has the byte of a line feed in it. -/
theorem mem_bytes_iff {g : Glyph} (h : g ≠ stray 10) : 10 ∈ g.bytes ↔ g = scalar '\n' := by
  constructor
  · intro hmem
    cases g with
    | stray b =>
      rw [bytes, List.mem_singleton] at hmem
      exact absurd (congrArg stray hmem.symm) h
    | scalar c =>
      rw [bytes] at hmem
      have htail := tail_utf8EncodeChar c
      cases henc : String.utf8EncodeChar c with
      | nil => rw [henc] at hmem; cases hmem
      | cons b tail =>
        rw [henc] at hmem htail
        rcases List.mem_cons.1 hmem with rfl | hmem
        · obtain rfl : tail = [] := List.length_eq_zero_iff.1 (length_tail_utf8EncodeChar henc)
          rw [eq_of_utf8EncodeChar henc]
        · exact absurd (htail 10 hmem) (by decide)
  · rintro rfl
    decide

end Glyph

namespace Text

/-- Texts that their bytes are decoded to. -/
def Decoded (t : Text) : Prop := Text.ofBytes t.toBytes = t

theorem decoded_ofBytes (bytes : List UInt8) : (ofBytes bytes).Decoded := by
  rw [Decoded, toBytes_ofBytes]

theorem toBytes_append (s t : Text) : toBytes (s ++ t) = toBytes s ++ toBytes t :=
  List.flatMap_append

theorem toBytes_concat (t : Text) (g : Glyph) : toBytes (t ++ [g]) = toBytes t ++ g.bytes := by
  rw [toBytes_append]
  exact congrArg (toBytes t ++ ·) (List.flatMap_singleton Glyph.bytes g)

theorem decoded_nil : Decoded [] := by rw [Decoded, toBytes, List.flatMap_nil, ofBytes]

theorem decoded_cons {g : Glyph} {t : Text} {b : UInt8} {tail : List UInt8}
    (hbytes : g.bytes = b :: tail) (hread : Glyph.read b (tail ++ toBytes t) = (g, toBytes t))
    (ht : Decoded t) : Decoded (g :: t) := by
  have hwhole : toBytes (g :: t) = b :: (tail ++ toBytes t) := by
    rw [toBytes, List.flatMap_cons, hbytes]
    rfl
  rw [Decoded, hwhole, ofBytes_cons, hread]
  exact congrArg (g :: ·) ht

namespace Decoded

variable {s t : Text}

/-- The first glyph of a decoded text is read in front of the others. -/
theorem uncons {g : Glyph} (h : Decoded (g :: t)) : ∃ b tail, g.bytes = b :: tail
    ∧ Glyph.read b (tail ++ toBytes t) = (g, toBytes t) ∧ Decoded t := by
  rw [Decoded] at h
  cases hbytes : g.bytes with
  | nil => cases g <;> simp [Glyph.bytes, String.utf8EncodeChar_ne_nil] at hbytes
  | cons b tail =>
    have hwhole : toBytes (g :: t) = b :: (tail ++ toBytes t) := by
      rw [toBytes, List.flatMap_cons, hbytes]
      rfl
    rw [hwhole, ofBytes_cons] at h
    obtain ⟨hg, ht⟩ := List.cons.inj h
    have hrest := congrArg toBytes ht
    rw [toBytes_ofBytes] at hrest
    refine ⟨b, tail, rfl, Prod.ext hg hrest, ?_⟩
    rw [Decoded, ← hrest, ht]

/-- A front of a decoded text is decoded. -/
theorem front (h : Decoded (s ++ t)) : Decoded s := by
  induction s with
  | nil => exact decoded_nil
  | cons g s ih =>
    obtain ⟨b, tail, hbytes, hread, hmore⟩ := uncons h
    rw [show s.append t = s ++ t from rfl, toBytes_append, ← List.append_assoc] at hread
    have hfront := Glyph.read_front (congrArg Prod.snd hread)
    rw [hread] at hfront
    exact decoded_cons hbytes hfront (ih hmore)

/-- What is left behind a front of a decoded text is decoded. -/
theorem back (h : Decoded (s ++ t)) : Decoded t := by
  induction s with
  | nil => exact h
  | cons g s ih =>
    obtain ⟨b, tail, hbytes, hread, hmore⟩ := uncons h
    exact ih hmore

theorem ne_stray (h : Decoded t) : ∀ g ∈ t, g ≠ Glyph.stray 10 := by
  induction t with
  | nil => exact List.forall_mem_nil _
  | cons g t ih =>
    obtain ⟨b, tail, hbytes, hread, hmore⟩ := uncons h
    refine List.forall_mem_cons.2 ⟨?_, ih hmore⟩
    have hg := Glyph.read_ne_stray b (tail ++ toBytes t)
    rwa [hread] at hg

end Decoded

end Text

/-! ### Characters of one byte -/

/-- The characters of one byte. -/
def Glyph.isAscii (g : Glyph) : Bool := g.satisfies fun c => c.toNat < 128

/-- A character of one byte is read off that byte. -/
theorem Glyph.read_ascii {g : Glyph} (hg : g.isAscii = true) :
    ∃ b, g.bytes = [b] ∧ b.toNat < 128 ∧ ∀ rest, read b rest = (g, rest) := by
  cases g with
  | stray b => cases hg
  | scalar c =>
    have hc : c.toNat < 128 := of_decide_eq_true hg
    have hc' : c.val.toNat ≤ 127 := Nat.le_of_lt_succ hc
    have hbytes : String.utf8EncodeChar c = [UInt8.ofNat c.val.toNat] := by
      unfold String.utf8EncodeChar
      exact if_pos hc'
    have hvalue : (UInt8.ofNat c.val.toNat).toNat = c.val.toNat := by
      rw [UInt8.toNat_ofNat', Nat.mod_eq_of_lt (by omega)]
    have hlength : tailLength (UInt8.ofNat c.val.toNat) = 0 := by
      unfold tailLength
      simp only [UInt8.lt_iff_toNat_lt, hvalue, UInt8.reduceToNat]
      exact if_pos (by omega)
    refine ⟨_, hbytes, by rw [hvalue]; exact hc, fun rest => ?_⟩
    have hcandidate : candidate (UInt8.ofNat c.val.toNat) [] = c := by
      rw [candidate, List.foldl_nil, leadBits, hlength]
      show Char.ofNat (UInt8.ofNat c.val.toNat).toNat = c
      rw [hvalue]
      exact Char.ofNat_toNat c
    simp only [read, hlength, List.take_zero, List.drop_zero, hcandidate, hbytes, if_true]

/-- No character goes over a byte that is a character itself. -/
theorem Glyph.exists_behind_read {c : UInt8} (hc : c.toNat < 128) (x : UInt8)
    (rest more : List UInt8) : ∃ ys, (read x (rest ++ c :: more)).2 = ys ++ c :: more := by
  unfold read
  dsimp only
  split
  · next henc =>
    by_cases hlong : tailLength x ≤ rest.length
    · exact ⟨_, List.drop_append_of_le_length hlong⟩
    · -- the byte would be in the tail of the character
      have hmem : c ∈ (rest ++ c :: more).take (tailLength x) := by
        rw [List.take_append, List.mem_append]
        right
        obtain ⟨n, hn⟩ := Nat.exists_eq_add_of_lt (Nat.lt_of_not_le hlong)
        rw [hn, show rest.length + n + 1 - rest.length = n + 1 by omega, List.take_succ_cons]
        exact List.mem_cons_self
      have hle := tail_utf8EncodeChar _ c (by rw [henc]; exact hmem)
      omega
  · exact ⟨rest, rfl⟩

namespace Text

/-- Characters of one byte each are decoded one by one. -/
theorem ofBytes_ascii {v : Text} (hv : ∀ g ∈ v, g.isAscii = true) (rest : List UInt8) :
    ofBytes (toBytes v ++ rest) = v ++ ofBytes rest := by
  induction v with
  | nil => rfl
  | cons g v ih =>
    obtain ⟨hg, hv⟩ := List.forall_mem_cons.1 hv
    obtain ⟨b, hb, -, hread⟩ := Glyph.read_ascii hg
    have hbytes : toBytes (g :: v) ++ rest = b :: (toBytes v ++ rest) := by
      rw [toBytes, List.flatMap_cons, hb]
      rfl
    rw [hbytes, ofBytes_cons, hread, ih hv]
    rfl

/-- A character of one byte divides a byte string into two parts that are decoded apart. -/
theorem ofBytes_append_ascii {g : Glyph} (hg : g.isAscii = true) (xs ys : List UInt8) :
    ofBytes (xs ++ g.bytes ++ ys) = ofBytes xs ++ g :: ofBytes ys := by
  obtain ⟨c, hbytes, hc, hread⟩ := Glyph.read_ascii hg
  rw [hbytes, List.append_assoc, List.singleton_append]
  fun_induction ofBytes xs with
  | case1 =>
    rw [List.nil_append, ofBytes_cons, hread]
    rfl
  | case2 x rest ih =>
    obtain ⟨zs, hzs⟩ := Glyph.exists_behind_read hc x rest ys
    have hfront := Glyph.read_front hzs
    rw [List.cons_append, ofBytes_cons, hzs]
    rw [hfront] at ih ⊢
    exact congrArg (_ :: ·) ih

end Text

/-! ### Counting lines and columns -/

/-- What stands behind the last line feed of a byte string. -/
def lastLine (bytes : List UInt8) : List UInt8 := bytes.rtakeWhile (· ≠ 10)

/-- The place behind a byte string: one line more than it has line feeds, and one column more than
there are decoding steps behind the last of these. -/
def Position.behind (bytes : List UInt8) : Position :=
  ⟨1 + bytes.count 10, 1 + (Text.ofBytes (lastLine bytes)).length⟩

theorem rtakeWhile_append_of_pos {α : Type} {p : α → Bool} (xs : List α) {ys : List α}
    (h : ∀ y ∈ ys, p y = true) : (xs ++ ys).rtakeWhile p = xs.rtakeWhile p ++ ys := by
  simp only [List.rtakeWhile, List.reverse_append]
  rw [List.takeWhile_append_of_pos fun y hy => h y (List.mem_reverse.1 hy), List.reverse_append,
    List.reverse_reverse]

namespace Text

/-- The last line of a decoded text has the bytes of the last line. -/
theorem Decoded.lastLine {t : Text} (h : t.Decoded) :
    lastLine t.toBytes = toBytes (t.rtakeWhile (· ≠ lineFeed)) := by
  induction t using List.reverseRecOn with
  | nil => rfl
  | append_singleton t g ih =>
    have hne := h.ne_stray g List.mem_concat_self
    rw [toBytes_concat]
    by_cases hg : g = lineFeed
    · have hlf : g.bytes = [10] := by rw [hg]; rfl
      rw [hlf, JavaPrimer.lastLine, List.rtakeWhile_concat_neg _ _ _ (by simp),
        List.rtakeWhile_concat_neg _ _ _ (by simp [hg])]
      rfl
    · have hother : ∀ y ∈ g.bytes, decide (y ≠ 10) = true := by
        rintro y hy
        refine decide_eq_true ?_
        rintro rfl
        exact hg ((Glyph.mem_bytes_iff hne).1 hy)
      rw [JavaPrimer.lastLine, rtakeWhile_append_of_pos _ hother,
        List.rtakeWhile_concat_pos _ _ _ (by simpa using hg), ← JavaPrimer.lastLine, ih h.front,
        toBytes_concat]

/-- The line feeds of a decoded text are those of its bytes. -/
theorem Decoded.count {t : Text} (h : t.Decoded) :
    t.toBytes.count 10 = List.count lineFeed t := by
  induction t using List.reverseRecOn with
  | nil => rfl
  | append_singleton t g ih =>
    have hne := h.ne_stray g List.mem_concat_self
    rw [toBytes_concat, List.count_append, List.count_append, ih h.front]
    by_cases hg : g = lineFeed
    · rw [hg]
      rfl
    · have hnone : 10 ∉ g.bytes := fun hmem => hg ((Glyph.mem_bytes_iff hne).1 hmem)
      rw [List.count_eq_zero_of_not_mem hnone, List.count_singleton, beq_false_of_ne hg]
      rfl

/-- Reading a text from the start counts its line feeds, and the glyphs behind the last of them. -/
theorem advance_origin (t : Text) : Position.origin.advance t
    = ⟨1 + List.count lineFeed t, 1 + (t.rtakeWhile (· ≠ lineFeed)).length⟩ := by
  induction t using List.reverseRecOn with
  | nil => rfl
  | append_singleton t g ih =>
    rw [Position.advance_append, ih, List.count_append]
    show Position.after _ g = _
    by_cases hg : g = lineFeed
    · rw [Position.after, if_pos hg, List.rtakeWhile_concat_neg _ _ _ (by simp [hg]), hg]
      simp [Int.add_assoc]
    · rw [Position.after, if_neg hg, List.rtakeWhile_concat_pos _ _ _ (by simpa using hg),
        List.count_singleton, beq_false_of_ne hg]
      simp [Int.add_assoc]

/-- Reading a decoded text from the start goes to the place behind its bytes. -/
theorem Decoded.advance {t : Text} (h : t.Decoded) :
    Position.origin.advance t = .behind t.toBytes := by
  have hline : Decoded (t.rtakeWhile (· ≠ lineFeed)) := by
    obtain ⟨front, hfront⟩ := t.rtakeWhile_suffix (· ≠ lineFeed)
    rw [← hfront] at h
    exact h.back
  rw [advance_origin, Position.behind, h.count, h.lastLine, hline]

/-- A text without a line feed keeps to its line and takes one column for each glyph. -/
theorem advance_of_not_mem {t : Text} (h : lineFeed ∉ t) (p : Position) :
    p.advance t = ⟨p.line, p.column + t.length⟩ := by
  induction t generalizing p with
  | nil =>
    rw [Position.advance_nil, List.length_nil, Int.natCast_zero, Int.add_zero]
  | cons g t ih =>
    rw [List.mem_cons, not_or] at h
    show (p.after g).advance t = _
    rw [ih h.2, Position.after, if_neg (Ne.symm h.1), List.length_cons]
    rw [Position.mk.injEq]
    refine ⟨rfl, ?_⟩
    show p.column + 1 + (t.length : Int) = p.column + (t.length + 1 : Nat)
    omega

end Text

/-! ### No line feed inside a token -/

theorem not_mem_takeWhile {p : Glyph → Bool} (hp : p Text.lineFeed = false) (t : Text) :
    Text.lineFeed ∉ t.takeWhile p := by
  intro hmem
  rw [List.mem_takeWhile_imp hmem] at hp
  cases hp

/-- An escape that does not start with a line feed has none. -/
theorem not_mem_readEscape {g : Glyph} (hg : g ≠ Text.lineFeed) (rest : Text) :
    Text.lineFeed ∉ (readEscape g rest).1 := by
  have halone : Text.lineFeed ∉ [g] := by
    rw [List.mem_singleton]
    exact hg.symm
  unfold readEscape
  split
  · exact halone
  split
  · rw [readUnicode, List.mem_append, not_or]
    exact ⟨not_mem_takeWhile rfl _, not_mem_takeWhile rfl _⟩
  split
  · exact not_mem_takeWhile rfl _
  · exact halone

/-- A literal is cut at the end of its line. -/
theorem not_mem_readUnits {quote : Glyph} (hquote : quote ≠ Text.lineFeed) (t : Text) :
    Text.lineFeed ∉ unitsText quote (readUnits quote t) := by
  fun_induction readUnits quote t with
  | case1 => exact List.not_mem_nil
  | case2 => exact List.not_mem_nil
  | case3 => exact fun hmem => hquote (List.mem_singleton.1 hmem).symm
  | case4 => exact fun hmem => absurd (List.mem_singleton.1 hmem) (by decide)
  | case5 => exact fun hmem => absurd (List.mem_singleton.1 hmem) (by decide)
  | case6 e more hn body fault he _ _ ih =>
    have hbody := not_mem_readEscape hn more
    rw [he] at hbody
    rw [unitsText_consUnit, List.mem_append, not_or]
    refine ⟨?_, ih⟩
    rw [LiteralUnit.text, List.mem_cons, not_or]
    exact ⟨by decide, hbody⟩
  | case7 g rest hline _ _ ih =>
    rw [unitsText_consUnit, List.mem_append, not_or]
    refine ⟨fun hmem => ?_, ih⟩
    rw [← List.mem_singleton.1 hmem] at hline
    exact hline rfl

/-- A front that stays one when carriage returns are put in front of the line feeds has none. -/
theorem not_mem_of_front_crlf {d r : Text} (h : d <+: Text.crlf (d ++ r)) : Text.lineFeed ∉ d := by
  induction d with
  | nil => exact List.not_mem_nil
  | cons g d ih =>
    by_cases hg : g = Text.lineFeed
    · rw [hg, List.cons_append, Text.crlf_cons_lineFeed, List.cons_prefix_cons] at h
      exact absurd h.1 (by decide)
    · rw [List.cons_append, Text.crlf_cons hg, List.cons_prefix_cons] at h
      rw [List.mem_cons, not_or]
      exact ⟨Ne.symm hg, ih h.2⟩

namespace Piece

/-- A numeral is read without regard to line endings, so none is in it. -/
theorem not_mem_numeral (t : Text) : Text.lineFeed ∉ (Numeral.read t).text := by
  obtain ⟨r, hr⟩ := Numeral.text_front t
  have hfront := Numeral.text_front t.crlf
  rw [Numeral.read_crlf] at hfront
  refine not_mem_of_front_crlf (r := r) ?_
  rwa [hr]

theorem not_mem_readOperator {g : Glyph} {rest : Text}
    (h : (readOperator g rest).isToken = true) : Text.lineFeed ∉ (readOperator g rest).text := by
  unfold readOperator at h ⊢
  split at h
  · next hfind => exact (operators_no_line_end _ (List.mem_of_find?_eq_some hfind)).2
  · cases h

/-- No token has a line feed in it. -/
theorem not_mem_of_isToken {g : Glyph} {rest : Text} (h : (read g rest).isToken = true) :
    Text.lineFeed ∉ (read g rest).text := by
  revert h
  unfold read
  dsimp only
  split
  · exact fun h => nomatch h
  split
  · exact fun h => nomatch h
  split
  · exact fun h => nomatch h
  split
  · exact fun _ => not_mem_numeral _
  split
  · next hquote =>
    have hg : g ≠ Text.lineFeed := by rcases hquote with rfl | rfl <;> decide
    intro _
    show Text.lineFeed ∉ g :: unitsText g (readUnits g rest)
    rw [List.mem_cons, not_or]
    exact ⟨hg.symm, not_mem_readUnits hg rest⟩
  split
  · exact fun _ => not_mem_takeWhile rfl _
  · exact not_mem_readOperator

end Piece

/-! ### Tokens behind their bytes -/

/-- The tokens of gaps and tokens in turn, each with all the bytes in front of it. -/
def leads (lead : List UInt8) : List (List Piece × Token) → List (List UInt8 × Token)
  | [] => []
  | (gap, t) :: more =>
    let front := lead ++ Text.toBytes (gap.flatMap Piece.text)
    (front, t) :: leads (front ++ t.value.toBytes) more

/-- A token of a byte string, with the bytes in front of it, stands where its own bytes do. -/
structure Token.Located (bytes lead : List UInt8) (t : Token) : Prop where
  /-- What the token was written as stands behind `lead`. -/
  there : lead ++ t.value.toBytes <+: bytes
  /-- The glyphs of a token are the decoding steps of its bytes. -/
  decoded : t.value.Decoded
  start : t.span.start = .behind lead
  stop : t.span.stop = .behind (lead ++ t.value.toBytes)
  /-- Only the end of input is no part of a line. -/
  oneLine : t.kind ≠ .eof → t.span.stop.line = t.span.start.line
    ∧ t.span.stop.column - t.span.start.column = t.value.length

theorem map_snd_leads (lead : List UInt8) (gs : List (List Piece × Token)) :
    (leads lead gs).map Prod.snd = gs.map Prod.snd := by
  induction gs generalizing lead with
  | nil => rfl
  | cons y gs ih => exact congrArg (y.2 :: ·) (ih _)

/-- A token that is made of a part of a source stands where the bytes of that part do. -/
theorem located_part {bytes : List UInt8} {front : Text} (part after : Text) {t : Token}
    (hsource : Text.ofBytes bytes = front ++ part ++ after) (hvalue : t.value = part)
    (hspan : t.span = ⟨Position.origin.advance front, Position.origin.advance (front ++ part)⟩)
    (hline : t.kind ≠ .eof → Text.lineFeed ∉ part) : t.Located bytes front.toBytes := by
  have hdecoded := Text.decoded_ofBytes bytes
  rw [hsource] at hdecoded
  have hthrough := hdecoded.front
  constructor
  case there =>
    have hbytes := congrArg Text.toBytes hsource
    rw [Text.toBytes_ofBytes, Text.toBytes_append, Text.toBytes_append] at hbytes
    rw [hvalue, hbytes]
    exact List.prefix_append _ _
  case decoded =>
    rw [hvalue]
    exact hthrough.back
  case start => rw [hspan, hthrough.front.advance]
  case stop => rw [hspan, hvalue, hthrough.advance, Text.toBytes_append]
  case oneLine =>
    intro hkind
    rw [hspan, hvalue, Position.advance_append, Text.advance_of_not_mem (hline hkind)]
    refine ⟨rfl, ?_⟩
    dsimp only
    omega

/-- A token that is read in a source stands where its bytes do. -/
theorem located_of_read {bytes : List UInt8} {front rest : Text} {g : Glyph} {t : Token}
    (hsource : Text.ofBytes bytes = front ++ g :: rest)
    (htoken : (Piece.read g rest).token? (Position.origin.advance front) = some t) :
    t.Located bytes front.toBytes := by
  obtain ⟨after, hafter⟩ := Piece.text_front g rest
  refine located_part (Piece.read g rest).text after ?_ (Piece.value_of_token? htoken) ?_ ?_
  · rw [hsource, List.append_assoc, hafter]
  · rw [Piece.span_of_token? htoken, Piece.span, Position.advance_append]
  · intro _
    apply Piece.not_mem_of_isToken
    rw [← Piece.token?_isSome, htoken]
    rfl

/-- Every token of a source but the end of input is read at some place of it. -/
theorem exists_read_of_mem {source : Text} {t : Token} (ht : t ∈ (lex source).tokens)
    (hkind : t.kind ≠ .eof) : ∃ front g rest, source = front ++ g :: rest
      ∧ (Position.origin.advance front, Piece.read g rest) ∈ placed .origin (pieces source)
      ∧ (Piece.read g rest).token? (Position.origin.advance front) = some t := by
  rcases List.mem_append.1 ht with ht | ht
  · obtain ⟨⟨p, x⟩, hx, htoken⟩ := List.mem_filterMap.1 ht
    obtain ⟨front, hmem, rfl⟩ := exists_fronted_of_placed hx
    obtain ⟨g, rest, hsource, hread⟩ := mem_fronted_pieces hmem
    obtain rfl : x = Piece.read g rest := hread
    exact ⟨front, g, rest, hsource, hx, htoken⟩
  · rw [List.mem_singleton.1 ht] at hkind
    exact absurd rfl hkind

/-- Each token that pieces make was made of one of them, or it is the end of input behind all. -/
theorem mem_leads_gapped (front : Text) {xs : List Piece} {y : List UInt8 × Token}
    (h : y ∈ leads front.toBytes (gapped front xs)) :
    (∃ lead x, y.1 = Text.toBytes lead ∧ (lead, x) ∈ fronted front xs
        ∧ x.token? (Position.origin.advance lead) = some y.2)
      ∨ y = (Text.toBytes (front ++ xs.flatMap Piece.text),
        .endOfInput (Position.origin.advance (front ++ xs.flatMap Piece.text))) := by
  induction xs using gap_induction generalizing front with
  | last gap hgap =>
    rw [gapped_last hgap, leads, leads, List.mem_singleton] at h
    right
    rw [h, Text.toBytes_append]
  | step gap x rest hgap hx ih =>
    obtain ⟨t, ht⟩ := Option.isSome_iff_exists.1 ((x.token?_isSome _).trans hx)
    rw [gapped_step hgap front rest ht, leads, ← Text.toBytes_append, Piece.value_of_token? ht,
      ← Text.toBytes_append] at h
    rcases List.mem_cons.1 h with rfl | h
    · left
      refine ⟨_, x, rfl, ?_, ht⟩
      rw [fronted_append]
      exact List.mem_append_right _ List.mem_cons_self
    · rcases ih _ h with ⟨lead, z, hlead, hz, htoken⟩ | hend
      · left
        refine ⟨lead, z, hlead, ?_, htoken⟩
        rw [fronted_append]
        exact List.mem_append_right _ (List.mem_cons_of_mem _ hz)
      · right
        rw [hend, List.flatMap_append, List.flatMap_cons]
        simp only [List.append_assoc]

/-- Every token of a byte string stands where its bytes do: lines count the line feeds in front of
it, columns the decoding steps behind the last of them. No token but the end of input goes over a
line end, and none begins before the one in front of it ends. -/
theorem lex_located (bytes : List UInt8) :
    ∃ gaps, Accounts (Text.ofBytes bytes) gaps (lex (Text.ofBytes bytes))
      ∧ (leads [] (gaps.zip (lex (Text.ofBytes bytes)).tokens)).map Prod.snd
        = (lex (Text.ofBytes bytes)).tokens
      ∧ (∀ y ∈ leads [] (gaps.zip (lex (Text.ofBytes bytes)).tokens), y.2.Located bytes y.1)
      ∧ (lex (Text.ofBytes bytes)).tokens.Pairwise fun t u => t.span.stop ≤ u.span.start := by
  have haccounts := accounts_splitOnP (Text.ofBytes bytes)
  refine ⟨_, haccounts, ?_, ?_, ?_⟩
  · rw [map_snd_leads]
    exact List.map_snd_zip (le_of_eq haccounts.count.symm)
  · intro y hy
    rw [← tokensBehind_pieces, ← gapped] at hy
    rcases mem_leads_gapped [] hy with ⟨front, x, hlead, hx, htoken⟩ | rfl
    · obtain ⟨g, rest, hsource, hread⟩ := mem_fronted_pieces hx
      rw [hlead]
      apply located_of_read hsource
      rw [← show x = Piece.read g rest from hread]
      exact htoken
    · rw [List.nil_append, flatMap_text_pieces]
      refine located_part [] [] ?_ rfl ?_ ?_
      · simp
      · rw [List.append_nil]
        rfl
      · exact fun hkind => absurd rfl hkind
  · refine List.pairwise_append.2 ⟨?_, List.pairwise_singleton _ _, fun t ht u hu => ?_⟩
    · refine (spaced_placed (fun x hx => ?_) .origin).apart
      obtain ⟨g, rest, rfl⟩ := mem_pieces hx
      exact Piece.text_ne_nil g rest
    · rw [List.mem_singleton.1 hu]
      obtain ⟨⟨q, x⟩, hx, htoken⟩ := List.mem_filterMap.1 ht
      obtain ⟨front, hmem, rfl⟩ := exists_fronted_of_placed hx
      rw [Piece.span_of_token? htoken]
      have hwhole : x.text = [] ++ (x.text ++ []) := (List.append_nil _).symm
      exact (ranged_of_mem_fronted hmem hwhole).stop.le_end

end JavaPrimer

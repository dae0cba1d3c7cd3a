import JavaPrimer.Proofs.CleanRun
import Mathlib.Data.List.Basic

/-!
# Tokens that look alike to a parser

A parser looks at the kinds of tokens, at their places and at whether they were cut off. Of
their spellings it asks only whether an identifier is one of four words. What a learner calls a
variable or writes between quotes goes into the messages, and from there into the category of an
error: a spelling that has both `left` and `assignment` in it, in capitals or not, is taken for
one about the left side of an assignment.

* `Kind.isFree`, `fixedWords`, `Token.Alike` — tokens that differ in a learner's spelling at most;
* `Token.misleads` — a spelling that is taken for words about an assignment;
* `Token.Faithful`, `Token.Exact` — relations by which tokens mislead alike, or are the same;
* `Text.contains_quoted` — the words of a message and those of the spelling quoted in it;
* `Complaint.category_eq` — the category of an error, from what was wanted and what was found;
* `Complaint.Like`, `Diagnostic.Like` — two errors about tokens that are alike;
* `Complaint.Like.category`, `Complaint.Like.diagnostic` — they differ in a category at most that
  the words about an assignment decide.
-/

namespace JavaPrimer

/-! ### Tokens -/

/-- Kinds of token that are spelled as the learner likes. -/
def Kind.isFree : Kind → Bool
  | .intLit | .floatLit | .stringLit | .charLit | .ident => true
  | _ => false

/-- The identifiers that a parser knows. -/
def fixedWords : List Text := ["System", "out", "println", "print"]

/-- Two tokens of one kind in one place. They are spelled alike, or each as its learner likes; a
word that the parser knows is alike to itself only. -/
structure Token.Alike (t u : Token) : Prop where
  kind : u.kind = t.kind
  span : u.span = t.span
  unterminated : u.unterminated = t.unterminated
  value : u.value = t.value
    ∨ t.kind.isFree = true ∧ (t.kind = .ident → t.value ∉ fixedWords ∧ u.value ∉ fixedWords)

/-- The two words by which a message about an assignment is told. -/
def misleadingWords : List Text := ["left", "assignment"]

/-- Whether the spelling of a token, once it is quoted in a message, is taken for words about the
left side of an assignment. -/
def Token.misleads (t : Token) : Bool :=
  t.kind != .eof && misleadingWords.all fun w => Text.contains w (t.value.map Glyph.lower)

namespace Token

/-- A relation between tokens by which the same spellings are taken for words about an
assignment. -/
def Faithful (T : Token → Token → Prop) : Prop := ∀ t u, T t u → u.misleads = t.misleads

/-- A relation between tokens that are the same. -/
def Exact (T : Token → Token → Prop) : Prop := ∀ t u, T t u → u = t

variable {t u : Token}

theorem Alike.refl (t : Token) : t.Alike t := ⟨rfl, rfl, rfl, .inl rfl⟩

/-- Tokens of a kind that is spelled in one way are the same. -/
theorem Alike.eq (h : t.Alike u) (hk : t.kind.isFree = false) : u = t := by
  have hvalue : u.value = t.value := by
    rcases h.value with hvalue | ⟨hfree, -⟩
    · exact hvalue
    · rw [hk] at hfree
      cases hfree
  cases t
  cases u
  simp only [Token.mk.injEq]
  exact ⟨h.kind, hvalue, h.span, h.unterminated⟩

/-- Two identifiers that are alike are the same one of some known words, or neither is any. -/
theorem Alike.contains (h : t.Alike u) (hk : t.kind = .ident) (words : List Text)
    (hw : ∀ w ∈ words, w ∈ fixedWords) : words.contains u.value = words.contains t.value := by
  rcases h.value with hvalue | ⟨-, hfree⟩
  · rw [hvalue]
  · obtain ⟨ht, hu⟩ := hfree hk
    have hnot : ∀ v : Text, v ∉ fixedWords → words.contains v = false := by
      intro v hv
      simpa using fun hmem => hv (hw v hmem)
    rw [hnot _ ht, hnot _ hu]

theorem Alike.isWord (h : t.Alike u) {word : Text} (hw : word ∈ fixedWords) :
    u.isWord word = t.isWord word := by
  by_cases hk : t.kind = .ident
  · have hcontains := h.contains hk [word] (by simpa using hw)
    simp only [List.contains_cons, List.contains_nil, Bool.or_false] at hcontains
    simp only [Token.isWord, h.kind, hcontains]
  · have hnot : (t.kind == .ident) = false := beq_eq_false_iff_ne.2 hk
    simp only [Token.isWord, h.kind, hnot, Bool.false_and]

end Token

/-! ### Words in a message -/

namespace Text

theorem contains_iff {part t : Text} : contains part t = true ↔ part <:+: t := by
  induction t with
  | nil => simp [contains]
  | cons g rest ih => simp [contains, ih, List.infix_cons_iff]

/-- A glyph that a word does not have in it divides the places where the word can stand. -/
theorem contains_divided {part : Text} {q : Glyph} (hq : q ∉ part) (a b : Text) :
    contains part (a ++ q :: b) = (contains part a || contains part b) := by
  rw [Bool.eq_iff_iff, Bool.or_eq_true, contains_iff, contains_iff, contains_iff]
  constructor
  · rintro ⟨s, t, h⟩
    rw [List.append_assoc, List.append_eq_append_iff] at h
    rcases h with ⟨x, rfl, h⟩ | ⟨x, rfl, h⟩
    · -- the word starts before the glyph, so it ends before it too
      rcases List.append_eq_append_iff.1 h with ⟨y, rfl, -⟩ | ⟨y, rfl, hy⟩
      · exact .inl ⟨s, y, List.append_assoc s part y⟩
      · cases y with
        | nil =>
          rw [List.append_nil]
          exact .inl ⟨s, [], List.append_nil _⟩
        | cons g y =>
          obtain rfl : q = g := (List.cons.inj hy).1
          exact absurd (List.mem_append_right x List.mem_cons_self) hq
    · cases x with
      | nil =>
        cases part with
        | nil => exact .inl (List.nil_infix)
        | cons g part =>
          obtain rfl : q = g := (List.cons.inj h).1
          exact absurd List.mem_cons_self hq
      | cons g x =>
        obtain rfl : b = x ++ (part ++ t) := (List.cons.inj h).2
        exact .inr ⟨x, t, List.append_assoc x part t⟩
  · rintro (⟨s, t, rfl⟩ | ⟨s, t, rfl⟩)
    · exact ⟨s, t ++ q :: b, by simp only [List.append_assoc]⟩
    · exact ⟨a ++ q :: s, t, by simp only [List.append_assoc, List.cons_append]⟩

/-- A word is in a message if it is before the quotation, quoted or behind it. -/
theorem contains_quoted {part : Text} {q : Glyph} (hq : q ∉ part) (a t b : Text) :
    contains part (a ++ q :: (t ++ q :: b))
      = (contains part a || (contains part t || contains part b)) := by
  rw [contains_divided hq, contains_divided hq]

end Text

/-! ### Categories -/

/-- Whether a message has the two words in it, in capitals or not. -/
def misleading (message : Text) : Bool :=
  misleadingWords.all fun w => Text.contains w (message.map Glyph.lower)

/-- The category of an error with a message that is taken for one about an assignment, or that is
not. -/
def categoryOf (expected : List Text) (misled : Bool) : Category :=
  if expected.contains (";" : Text) then .missingSemicolon
  else if expected.contains ("\x7d" : Text) then .unclosedBrace
  else if expected.contains (")" : Text) then .unclosedParen
  else if expected.contains ("type" : Text) then .missingType
  else if misled then .invalidAssignmentTarget
  else if expected.isEmpty then .unexpectedToken
  else .generalSyntax

theorem classify_eq (expected : List Text) (message : Text) :
    classify expected message = categoryOf expected (misleading message) := by
  simp only [classify, categoryOf, misleading, misleadingWords, List.all_cons, List.all_nil,
    Bool.and_true]

/-- The two categories that one word in a spelling can exchange. -/
def Category.isLoose (x : Category) : Bool :=
  x == .generalSyntax || x == .invalidAssignmentTarget

theorem categoryOf_cases {expected : List Text} (h : expected ≠ []) (b b' : Bool) :
    categoryOf expected b' = categoryOf expected b
      ∨ (categoryOf expected b).isLoose = true ∧ (categoryOf expected b').isLoose = true := by
  have hempty : expected.isEmpty = false := by simpa using h
  unfold categoryOf
  rw [hempty]
  split
  · exact .inl rfl
  split
  · exact .inl rfl
  split
  · exact .inl rfl
  split
  · exact .inl rfl
  · cases b <;> cases b' <;> decide

theorem isKnown_categoryOf (expected : List Text) (b : Bool) :
    (categoryOf expected b).isKnown = true := by
  unfold categoryOf
  repeat' split
  all_goals rfl

namespace Complaint

/-- A message up to the token that was found, or that none was, without the two words. -/
def isPlain (start : Text) : Bool :=
  misleadingWords.all fun w => !Text.contains w ((start ++ "end of input").map Glyph.lower)

theorem contains_of_isPlain {start : Text} (h : isPlain start = true) {w : Text}
    (hw : w ∈ misleadingWords) :
    Text.contains w ((start ++ "end of input").map Glyph.lower) = false
      ∧ Text.contains w (start.map Glyph.lower) = false := by
  have hplain : Text.contains w ((start ++ "end of input").map Glyph.lower) = false := by
    simpa using List.all_eq_true.1 h w hw
  refine ⟨hplain, ?_⟩
  rw [← Bool.not_eq_true, Text.contains_iff] at hplain ⊢
  intro hin
  apply hplain
  rw [List.map_append]
  exact hin.trans (List.prefix_append _ _).isInfix

/-- Behind words of its own a message is misleading if the spelling that it quotes is. -/
theorem misleading_described {start : Text} (h : isPlain start = true) (t : Token) :
    misleading (start ++ t.described) = t.misleads := by
  by_cases hk : t.kind = .eof
  · have hnone := (contains_of_isPlain h (w := "left") (by decide)).1
    simp only [misleading, misleadingWords, List.all_cons, Token.described, Token.misleads, hk,
      if_true, hnone, bne_self_eq_false, Bool.false_and]
  · have hshown : (start ++ t.described).map Glyph.lower
        = start.map Glyph.lower
          ++ .scalar '\'' :: (t.value.map Glyph.lower ++ .scalar '\'' :: []) := by
      simp only [Token.described, if_neg hk, List.map_append]
      rfl
    have hword : ∀ w ∈ misleadingWords, (Glyph.scalar '\'') ∉ w ∧ Text.contains w [] = false := by
      decide
    have hcontains : ∀ w ∈ misleadingWords,
        Text.contains w ((start ++ t.described).map Glyph.lower)
          = Text.contains w (t.value.map Glyph.lower) := by
      intro w hw
      rw [hshown, Text.contains_quoted (hword w hw).1, (contains_of_isPlain h hw).2,
        (hword w hw).2, Bool.false_or, Bool.or_false]
    have hne : (t.kind != .eof) = true := by simpa using hk
    simp only [misleading, Token.misleads, misleadingWords, List.all_cons, List.all_nil, hne,
      Bool.true_and, hcontains "left" (by decide), hcontains "assignment" (by decide)]

/-! ### Errors about tokens that are alike -/

/-- The kinds of token that a parser asks for. -/
def wantedKinds : List Kind :=
  [.ident, .semi, .lparen, .rparen, .lbrace, .rbrace, .lbracket, .rbracket, .kwString]

/-- Two errors of one cause about tokens that are related. Of an unknown type the name does not
matter, and where no statement can start the token is none that is spelled freely. -/
inductive Like (T : Token → Token → Prop) : Complaint → Complaint → Prop
  | token {k : Kind} (hk : k ∈ wantedKinds) {t u : Token} (h : T t u) : Like T (.token k t) (.token k u)
  | word {t u : Token} (h : T t u) :
    Like T (.word ["println", "print"] t) (.word ["println", "print"] u)
  | classDecl {t u : Token} (h : T t u) : Like T (.classDecl t) (.classDecl u)
  | noClass : Like T .noClass .noClass
  | type {t u : Token} (h : T t u) : Like T (.type t) (.type u)
  | unknownType {t u : Token} (h : T t u) : Like T (.unknownType t.value) (.unknownType u.value)
  | statement {t u : Token} (h : T t u) (hk : t.kind.isFree = false) :
    Like T (.statement t) (.statement u)
  | expression {t u : Token} (h : T t u) : Like T (.expression t) (.expression u)

section

variable {T : Token → Token → Prop}

/-- An error about a token that was found, by its words. -/
theorem category_eq {x : Complaint} {start : Text} {t : Token} (hstart : isPlain start = true)
    (hx : x.message = start ++ t.described) : x.category = categoryOf x.expected t.misleads := by
  rw [category, classify_eq, hx, misleading_described hstart]

theorem isPlain_wanted : ∀ k ∈ wantedKinds,
    isPlain ("expected " ++ wantedText k ++ " but found ") = true := by
  decide +kernel

/-- The categories of two such errors come from one list of what was wanted, and differ in whether
the messages are taken for words about an assignment. -/
theorem Like.category_eq (hT : ∀ t u, T t u → t.Alike u) {x y : Complaint} (h : Like T x y) :
    ∃ expected b b', x.category = categoryOf expected b ∧ y.category = categoryOf expected b'
      ∧ (b' = b ∨ expected ≠ []) ∧ (Token.Faithful T → b' = b) := by
  cases h with
  | @token k hk t u h =>
    have hplain := isPlain_wanted k hk
    exact ⟨[k.spelling], t.misleads, u.misleads, Complaint.category_eq hplain rfl,
      Complaint.category_eq hplain rfl, .inr (List.cons_ne_nil _ _), fun hf => hf t u h⟩
  | @word t u h =>
    have hplain : isPlain ("expected " ++ List.intercalate (Text.ofString " or ")
        (["println", "print"].map fun w : Text => "'" ++ w ++ "'") ++ " but found ") = true := by
      decide +kernel
    exact ⟨["println", "print"], t.misleads, u.misleads, Complaint.category_eq hplain rfl,
      Complaint.category_eq hplain rfl, .inr (List.cons_ne_nil _ _), fun hf => hf t u h⟩
  | @classDecl t u h =>
    have hplain : isPlain ("expected a class declaration ('public class Name \x7b ... \x7d') but found ")
        = true := by
      decide +kernel
    exact ⟨["class declaration"], t.misleads, u.misleads, Complaint.category_eq hplain rfl,
      Complaint.category_eq hplain rfl, .inr (List.cons_ne_nil _ _), fun hf => hf t u h⟩
  | noClass => exact ⟨_, _, _, classify_eq _ _, classify_eq _ _, .inl rfl, fun _ => rfl⟩
  | @type t u h => exact ⟨["type"], false, false, rfl, rfl, .inl rfl, fun _ => rfl⟩
  | @unknownType t u h => exact ⟨["type"], false, false, rfl, rfl, .inl rfl, fun _ => rfl⟩
  | @statement t u h hk =>
    rw [(hT t u h).eq hk]
    exact ⟨_, _, _, classify_eq _ _, classify_eq _ _, .inl rfl, fun _ => rfl⟩
  | @expression t u h =>
    have hplain : isPlain ("expected an expression but found ") = true := by
      decide +kernel
    exact ⟨["expression"], t.misleads, u.misleads, Complaint.category_eq hplain rfl,
      Complaint.category_eq hplain rfl, .inr (List.cons_ne_nil _ _), fun hf => hf t u h⟩

theorem Like.category (hT : ∀ t u, T t u → t.Alike u) {x y : Complaint} (h : Like T x y) :
    y.category = x.category ∨ x.category.isLoose = true ∧ y.category.isLoose = true := by
  obtain ⟨expected, b, b', hx, hy, hne, -⟩ := h.category_eq hT
  rw [hx, hy]
  rcases hne with rfl | hne
  · exact .inl rfl
  · exact categoryOf_cases hne b b'

theorem Like.category_of_faithful (hT : ∀ t u, T t u → t.Alike u) (hf : Token.Faithful T)
    {x y : Complaint} (h : Like T x y) : y.category = x.category := by
  obtain ⟨expected, b, b', hx, hy, -, hsame⟩ := h.category_eq hT
  rw [hx, hy, hsame hf]

theorem Like.eq (he : Token.Exact T) {x y : Complaint} (h : Like T x y) : y = x := by
  cases h with
  | noClass => rfl
  | token _ h | word h | classDecl h | type h | unknownType h | statement h _ | expression h =>
    rw [he _ _ h]

/-- What is about something that was not closed is so for both. -/
theorem Like.isCloser (hT : ∀ t u, T t u → t.Alike u) {x y : Complaint} (h : Like T x y) :
    closerCategories.contains y.category = closerCategories.contains x.category := by
  have hloose : ∀ k : Category, k.isLoose = true → closerCategories.contains k = false := by
    intro k hk
    cases k <;> first | rfl | cases hk
  rcases h.category hT with heq | ⟨hx, hy⟩
  · rw [heq]
  · rw [hloose _ hx, hloose _ hy]

end

end Complaint

/-- Two diagnostics at one place. Their categories are the same, or one word in a spelling can
exchange them. -/
structure Diagnostic.Like (T : Token → Token → Prop) (d e : Diagnostic) : Prop where
  span : e.span = d.span
  category : e.category = d.category ∨ d.category.isLoose = true ∧ e.category.isLoose = true
  faithful : Token.Faithful T → e.category = d.category
  exact : Token.Exact T → e = d

end JavaPrimer

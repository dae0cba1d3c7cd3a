import JavaPrimer.Layout.Basic
import JavaPrimer.Parsing.Program

/-!
# What a tree is read from

Which lists of tokens a tree is the reading of, said on the tree alone: every node names the
tokens of its own and leaves the rest to its children. Spans play no part. The relation fixes
how operators group, so that the parser gives back the tree of a reading
(`Proofs/ReadBackTree.lean`), and it holds exactly of what the rule table derives
(`Proofs/AcceptedLanguage.lean`).

* `Expr.byParts`, `Stmt.byParts` — induction on trees, with the nested lists as one hypothesis;
* `ReadEach` — a list of things read one after another;
* `Expr.ReadFrom`, `Stmt.ReadFrom`, `Member.ReadFrom`, `ClassDecl.ReadFrom` — the readings;
* `Expr.rank` — how tightly an expression binds at its root.
-/

namespace JavaPrimer

/-! ### Induction on trees -/

/-- Induction on expressions; the arguments of calls and creations are parts like any other. -/
@[elab_as_elim]
theorem Expr.byParts {P : Expr → Prop}
    (binary : ∀ s level op t left right, P left → P right → P (.binary s level op t left right))
    (unary : ∀ s op e, P e → P (.unary s op e))
    (step : ∀ s op e, P e → P (.step s op e))
    (cast : ∀ s type e, P e → P (.cast s type e))
    (paren : ∀ s e, P e → P (.paren s e))
    (literal : ∀ s sort raw, P (.literal s sort raw))
    (name : ∀ s head selectors,
      (∀ t args, Selector.call t args ∈ selectors → ∀ e ∈ args, P e) → P (.name s head selectors))
    (new : ∀ s className args, (∀ e ∈ args, P e) → P (.new s className args))
    (bad : ∀ s, P (.bad s))
    (missing : P .missing) (e : Expr) : P e := by
  refine @Expr.rec P
    (fun x => ∀ t args, x = .call t args → ∀ e ∈ args, P e)
    (fun xs => ∀ t args, Selector.call t args ∈ xs → ∀ e ∈ args, P e)
    (fun es => ∀ e ∈ es, P e)
    binary unary step cast paren literal name new bad missing ?_ ?_ ?_ ?_ ?_ ?_ e
  · exact fun s n t args h => nomatch h
  · intro s args ih t args' h
    cases h
    exact ih
  · exact fun t args h => nomatch h
  · intro x xs hx hxs t args h
    rcases List.mem_cons.1 h with rfl | h
    · exact hx t args rfl
    · exact hxs t args h
  · exact fun e h => nomatch h
  · intro e es he hes e' h
    rcases List.mem_cons.1 h with rfl | h
    · exact he
    · exact hes e' h

/-- Induction on statements; those of a block are its parts. -/
@[elab_as_elim]
theorem Stmt.byParts {P : Stmt → Prop}
    (block : ∀ s stmts, (∀ x ∈ stmts, P x) → P (.block s stmts))
    (varDecl : ∀ s isFinal type name init, P (.varDecl s isFinal type name init))
    (print : ∀ s method arg, P (.print s method arg))
    (expr : ∀ s target op t value, P (.expr s target op t value))
    (missing : P .missing) (x : Stmt) : P x := by
  refine @Stmt.rec P (fun xs => ∀ x ∈ xs, P x)
    block varDecl print expr missing ?_ ?_ x
  · exact fun x h => nomatch h
  · intro x xs hx hxs y h
    rcases List.mem_cons.1 h with rfl | h
    · exact hx
    · exact hxs y h

/-! ### Lists of readings -/

/-- Things read one after another, each from its own tokens. -/
def ReadEach {α : Type} (P : α → List Token → Prop) : List α → List Token → Prop
  | [], ts => ts = []
  | x :: xs, ts => ∃ us vs, ts = us ++ vs ∧ P x us ∧ ReadEach P xs vs

theorem ReadEach.append {α : Type} {P : α → List Token → Prop} {xs ys : List α}
    {us vs : List Token} (hx : ReadEach P xs us) (hy : ReadEach P ys vs) :
    ReadEach P (xs ++ ys) (us ++ vs) := by
  induction xs generalizing us with
  | nil =>
    rw [show us = [] from hx]
    exact hy
  | cons x xs ih =>
    obtain ⟨a, b, rfl, ha, hb⟩ := hx
    exact ⟨a, b ++ vs, List.append_assoc a b vs, ha, ih hb⟩

theorem ReadEach.singleton {α : Type} {P : α → List Token → Prop} {x : α} {us : List Token}
    (h : P x us) : ReadEach P [x] us :=
  ⟨us, [], (List.append_nil us).symm, h, rfl⟩

theorem ReadEach.imp {α : Type} {P Q : α → List Token → Prop} {xs : List α} {us : List Token}
    (h : ReadEach P xs us) (hPQ : ∀ x ∈ xs, ∀ us, P x us → Q x us) : ReadEach Q xs us := by
  induction xs generalizing us with
  | nil => exact h
  | cons x xs ih =>
    obtain ⟨a, b, rfl, ha, hb⟩ := h
    exact ⟨a, b, rfl, hPQ x List.mem_cons_self a ha,
      ih hb fun y hy => hPQ y (List.mem_cons_of_mem x hy)⟩

/-- No part of a list is longer than the whole. -/
theorem ReadEach.bounded {α : Type} {P : α → List Token → Prop} {xs : List α} {us : List Token}
    {n : Nat} (h : ReadEach P xs us) (hn : us.length ≤ n) :
    ReadEach (fun x vs => P x vs ∧ vs.length ≤ n) xs us := by
  induction xs generalizing us with
  | nil => exact h
  | cons x xs ih =>
    obtain ⟨a, b, rfl, ha, hb⟩ := h
    rw [List.length_append] at hn
    exact ⟨a, b, rfl, ⟨ha, by omega⟩, ih hb (by omega)⟩

/-- A list of readings that are never empty is no longer than its tokens. -/
theorem ReadEach.length_le {α : Type} {P : α → List Token → Prop} (hne : ∀ x, ¬ P x [])
    {xs : List α} {us : List Token} (h : ReadEach P xs us) : xs.length ≤ us.length := by
  induction xs generalizing us with
  | nil => exact Nat.zero_le _
  | cons x xs ih =>
    obtain ⟨vs, ws, rfl, hx, hxs⟩ := h
    have hpos : 0 < vs.length := List.length_pos_iff.2 fun h => hne x (h ▸ hx)
    have hrest := ih hxs
    rw [List.length_append, List.length_cons]
    omega

/-! ### Leaves -/

/-- An identifier is read from one token. -/
def Ident.ReadFrom (x : Ident) (t : Token) : Prop := t.kind = .ident ∧ t.value = x.name

/-- A written type is read from its word and perhaps a pair of brackets. -/
def TypeSpec.ReadFrom (x : TypeSpec) (ts : List Token) : Prop :=
  ∃ w bs, ts = w :: bs ∧ w.kind.isTypeWord = true ∧ w.value = x.name
    ∧ bs.map Token.kind = if x.isArray then [.lbracket, .rbracket] else []

/-! ### Expressions -/

namespace Expr

/-- How tightly an expression binds at its root; only binary operators bind at all loosely. -/
def rank : Expr → Nat
  | binary _ level .. => level.rank
  | _ => 7

/-- Whether an expression can be followed by a step operator. -/
def isPrimary : Expr → Bool
  | paren .. | literal .. | name .. | new .. => true
  | _ => false

end Expr

theorem Level.rank_le (level : Level) : level.rank ≤ 6 := by cases level <;> decide

theorem Expr.rank_of_not_binary {e : Expr} (h : e.isBinary = false) : e.rank = 7 := by
  cases e <;> first | rfl | cases h

theorem Expr.isBinary_of_isPrimary {e : Expr} (h : e.isPrimary = true) : e.isBinary = false := by
  cases e <;> first | rfl | cases h

/-- On the left an operand stands free unless it binds looser than its place. -/
theorem Expr.needsParens_left (parent : Level) (e : Expr) :
    e.needsParens parent false = false ↔ parent.rank ≤ e.rank := by
  cases e with
  | binary s level op t left right => simp [needsParens, rank]
  | _ => exact iff_of_true rfl (Nat.le_succ_of_le (Level.rank_le parent))

/-- On the right an operand stands free only if it binds tighter than its place. -/
theorem Expr.needsParens_right (parent : Level) (e : Expr) :
    e.needsParens parent true = false ↔ parent.rank < e.rank := by
  cases e with
  | binary s level op t left right =>
    simp only [needsParens, rank, Bool.and_true, Bool.or_eq_false_iff, decide_eq_false_iff_not,
      beq_eq_false_iff_ne]
    omega
  | _ => exact iff_of_true rfl (Nat.lt_succ_of_le (Level.rank_le parent))

/-- The operator that a kind of token writes at a level. -/
def Level.Writes (level : Level) (k : Kind) (op : BinaryOp) : Prop :=
  ∃ tier ∈ tiers, tier.level = level ∧ tier.op? k = some op

mutual

/-- An expression is the reading of a list of tokens: the tokens spell it, and no operand of it
would need parentheses to be read back. -/
def Expr.ReadFrom : Expr → List Token → Prop
  | .binary _ level op _ left right, ts =>
    ∃ us o vs, ts = us ++ o :: vs ∧ level.Writes o.kind op
      ∧ left.needsParens level false = false ∧ right.needsParens level true = false
      ∧ left.ReadFrom us ∧ right.ReadFrom vs
  | .unary _ op e, ts =>
    ∃ o us, ts = o :: us ∧ UnaryOp.ofKind? o.kind = some op ∧ e.isBinary = false ∧ e.ReadFrom us
  | .step _ op e, ts =>
    ∃ us o, ts = us ++ [o] ∧ UnaryOp.ofKind? o.kind = some op ∧ op.isStep = true
      ∧ e.isPrimary = true ∧ e.ReadFrom us
  | .cast _ type e, ts =>
    ∃ l w r us, ts = l :: w :: r :: us ∧ l.kind = .lparen ∧ w.kind.isPrimitive = true
      ∧ r.kind = .rparen ∧ type.map TypeSpec.name = some w.value
      ∧ type.map TypeSpec.isArray = some false ∧ e.isBinary = false ∧ e.ReadFrom us
  | .paren _ e, ts =>
    ∃ l us r, ts = l :: (us ++ [r]) ∧ l.kind = .lparen ∧ r.kind = .rparen ∧ e.ReadFrom us
  | .literal _ sort raw, ts =>
    ∃ t, ts = [t] ∧ LiteralSort.ofKind? t.kind = some sort ∧ t.value = raw
  | .name _ head selectors, ts =>
    ∃ t us, ts = t :: us ∧ head.ReadFrom t ∧ selectorsReadFrom selectors us
  | .new _ className args, ts =>
    ∃ n t l us r, ts = n :: t :: l :: (us ++ [r]) ∧ n.kind = .kwNew ∧ className.ReadFrom t
      ∧ l.kind = .lparen ∧ r.kind = .rparen ∧ argsReadFrom args us
  | .bad _, _ | .missing, _ => False

/-- Arguments are read with commas between them. -/
def argsReadFrom : List Expr → List Token → Prop
  | [], ts => ts = []
  | e :: rest, ts => ∃ us vs, ts = us ++ vs ∧ e.ReadFrom us ∧ moreArgsReadFrom rest vs

/-- Further arguments, each with the comma before it. -/
def moreArgsReadFrom : List Expr → List Token → Prop
  | [], ts => ts = []
  | e :: rest, ts =>
    ∃ us vs, ts = us ++ vs ∧ (∃ c ws, us = c :: ws ∧ c.kind = .comma ∧ e.ReadFrom ws)
      ∧ moreArgsReadFrom rest vs

/-- A selector is a point and a field, or arguments in parentheses. -/
def Selector.ReadFrom : Selector → List Token → Prop
  | .field _ name, ts => ∃ d t, ts = [d, t] ∧ d.kind = .dot ∧ name.ReadFrom t
  | .call _ args, ts =>
    ∃ l us r, ts = l :: (us ++ [r]) ∧ l.kind = .lparen ∧ r.kind = .rparen ∧ argsReadFrom args us

/-- Selectors follow one another. -/
def selectorsReadFrom : List Selector → List Token → Prop
  | [], ts => ts = []
  | x :: rest, ts => ∃ us vs, ts = us ++ vs ∧ x.ReadFrom us ∧ selectorsReadFrom rest vs

end

/-- An argument with the comma before it. -/
def Expr.ReadAfterComma (e : Expr) (ts : List Token) : Prop :=
  ∃ c ws, ts = c :: ws ∧ c.kind = .comma ∧ e.ReadFrom ws

theorem moreArgsReadFrom_eq (es : List Expr) :
    moreArgsReadFrom es = ReadEach Expr.ReadAfterComma es := by
  induction es with
  | nil => rfl
  | cons e es ih =>
    funext ts
    simp only [moreArgsReadFrom, ReadEach, ih, Expr.ReadAfterComma]

theorem selectorsReadFrom_eq (xs : List Selector) :
    selectorsReadFrom xs = ReadEach Selector.ReadFrom xs := by
  induction xs with
  | nil => rfl
  | cons x xs ih =>
    funext ts
    simp only [selectorsReadFrom, ReadEach, ih]

/-! ### Tiers by number -/

theorem rank_tier : ∀ k, ∀ h : k < tiers.length, (tiers[k]).level.rank = k + 1 := by decide

/-- The operators of the `k`-th tier bind with rank `k + 1`. -/
theorem Level.writes_tier {k : Nat} (h : k < tiers.length) {kind : Kind} {op : BinaryOp}
    (ho : (tiers[k]).op? kind = some op) : (tiers[k]).level.Writes kind op :=
  ⟨tiers[k], List.getElem_mem h, rfl, ho⟩

/-! ### Statements -/

/-- The tokens `System . out .` at the front of a list. -/
def spellsPrint : List Token → Bool
  | s :: d :: o :: d' :: _ =>
    s.isWord "System" && d.kind == .dot && o.isWord "out" && d'.kind == .dot
  | _ => false

theorem spellsPrint_of_front {ts us : List Token} (hr : ts <+: us) (h : spellsPrint ts = true) :
    spellsPrint us = true := by
  obtain ⟨vs, rfl⟩ := hr
  match ts, h with
  | s :: d :: o :: d' :: ts, h => exact h

/-- A list that ends in a semicolon spells the start of a print statement by itself or not at
all. -/
theorem spellsPrint_append {us ts : List Token} {q : Token} (hq : q.kind = .semi) :
    spellsPrint (us ++ q :: ts) = spellsPrint (us ++ [q]) := by
  match us with
  | [] => cases ts with
    | nil => rfl
    | cons a ts => rcases ts with _ | ⟨b, _ | ⟨c, ts⟩⟩ <;> simp [spellsPrint, Token.isWord, hq]
  | [a] => rcases ts with _ | ⟨b, _ | ⟨c, ts⟩⟩ <;> simp [spellsPrint, hq]
  | [a, b] => rcases ts with _ | ⟨c, ts⟩ <;> simp [spellsPrint, Token.isWord, hq]
  | [a, b, c] => rfl
  | a :: b :: c :: d :: us => rfl

/-- The lookahead for a print statement sees the tokens that spell its start. -/
theorem Cursor.startsPrint_eq {c : Cursor} (hc : c.stop.kind = .eof) :
    c.startsPrint = spellsPrint c.rest := by
  have hword : ∀ word, c.stop.isWord word = false := by
    intro word
    simp [Token.isWord, hc]
  rcases hr : c.rest with _ | ⟨s, _ | ⟨d, _ | ⟨o, _ | ⟨d', ts⟩⟩⟩⟩ <;>
    simp [startsPrint, spellsPrint, current, ahead_short, hr, hc, hword]

/-- The methods that print. -/
def printMethods : List Text := ["println", "print"]

/-- An initializer with its sign, or nothing. -/
def Expr.ReadAsInit (init : Expr) (ts : List Token) : Prop :=
  (init = .missing ∧ ts = []) ∨ ∃ q us, ts = q :: us ∧ q.kind = .equals ∧ init.ReadFrom us

/-- The part of an assignment after its target, or nothing. -/
def ReadAsAssigned (target : Expr) (op : AssignOp) (value : Expr) (ts : List Token) : Prop :=
  (op = .none ∧ value = .missing ∧ ts = [])
    ∨ ∃ o us, ts = o :: us ∧ AssignOp.ofKind? o.kind = some op ∧ target.isAssignable = true
      ∧ value.ReadFrom us

/-- A declaration after its modifiers: type, name, initializer and semicolon. -/
def ReadAsDeclared (type : Option TypeSpec) (name : Ident) (init : Expr) (ts : List Token) : Prop :=
  ∃ ws x vs q, ts = ws ++ x :: (vs ++ [q]) ∧ (∃ t, type = some t ∧ t.ReadFrom ws)
    ∧ name.ReadFrom x ∧ init.ReadAsInit vs ∧ q.kind = .semi

mutual

/-- A statement is the reading of a list of tokens. An expression statement does not start the way
a print statement does. -/
def Stmt.ReadFrom : Stmt → List Token → Prop
  | .block _ stmts, ts =>
    ∃ l us r, ts = l :: (us ++ [r]) ∧ l.kind = .lbrace ∧ r.kind = .rbrace ∧ stmtsReadFrom stmts us
  | .varDecl _ isFinal type name init, ts =>
    ∃ fs us, ts = fs ++ us ∧ fs.map Token.kind = (if isFinal then [.kwFinal] else [])
      ∧ ReadAsDeclared type name init us
  | .print _ method arg, ts =>
    ∃ s d o d' m l us r q, ts = s :: d :: o :: d' :: m :: l :: (us ++ [r, q])
      ∧ spellsPrint [s, d, o, d'] = true ∧ method.ReadFrom m
      ∧ method.name ∈ printMethods ∧ l.kind = .lparen
      ∧ ((arg = .missing ∧ us = []) ∨ arg.ReadFrom us) ∧ r.kind = .rparen ∧ q.kind = .semi
  | .expr _ target op _ value, ts =>
    ∃ us vs q, ts = us ++ (vs ++ [q]) ∧ spellsPrint ts = false ∧ target.ReadFrom us
      ∧ ReadAsAssigned target op value vs ∧ q.kind = .semi
  | .missing, _ => False

/-- Statements follow one another. -/
def stmtsReadFrom : List Stmt → List Token → Prop
  | [], ts => ts = []
  | x :: rest, ts => ∃ us vs, ts = us ++ vs ∧ x.ReadFrom us ∧ stmtsReadFrom rest vs

end

theorem stmtsReadFrom_eq (xs : List Stmt) : stmtsReadFrom xs = ReadEach Stmt.ReadFrom xs := by
  induction xs with
  | nil => rfl
  | cons x xs ih =>
    funext ts
    simp only [stmtsReadFrom, ReadEach, ih]

/-- A statement is never read from nothing. -/
theorem Stmt.not_readFrom_nil (x : Stmt) : ¬ x.ReadFrom [] := by
  intro h
  cases x with
  | block => obtain ⟨_, _, _, h, -⟩ := h; cases h
  | varDecl =>
    obtain ⟨_, _, h, -, _, _, _, _, rfl, -⟩ := h
    simp at h
  | print => obtain ⟨_, _, _, _, _, _, _, _, _, h, -⟩ := h; cases h
  | expr => obtain ⟨_, _, _, h, -⟩ := h; simp at h
  | missing => exact h

/-! ### Classes -/

/-- The body of a method is read like a block. -/
def Block.ReadFrom (b : Block) (ts : List Token) : Prop := (Stmt.block b.span b.stmts).ReadFrom ts

/-- A member of a class is the reading of a list of tokens. -/
def Member.ReadFrom : Member → List Token → Prop
  | .main _ name param body, ts =>
    ∃ hs n ls x r us, ts = hs ++ n :: (ls ++ x :: r :: us)
      ∧ hs.map Token.kind = [.kwPublic, .kwStatic, .kwVoid] ∧ name.ReadFrom n
      ∧ ls.map Token.kind = [.lparen, .kwString, .lbracket, .rbracket] ∧ param.ReadFrom x
      ∧ r.kind = .rparen ∧ ∃ b, body = some b ∧ b.ReadFrom us
  | .field _ modifiers isFinal type name init, ts =>
    ∃ ms us, ts = ms ++ us ∧ (∀ m ∈ ms, m.kind.isModifier = true)
      ∧ ms.map Token.value = modifiers ∧ isFinal = ms.any (·.kind = .kwFinal)
      ∧ ReadAsDeclared type name init us

theorem Member.not_readFrom_nil (x : Member) : ¬ x.ReadFrom [] := by
  intro h
  cases x with
  | main =>
    obtain ⟨_, _, _, _, _, _, h, -⟩ := h
    simp at h
  | field =>
    obtain ⟨_, _, h, -, -, -, _, _, _, _, rfl, -⟩ := h
    simp at h

/-- A class is the reading of a list of tokens. -/
def ClassDecl.ReadFrom (c : ClassDecl) (ts : List Token) : Prop :=
  ∃ hs n l us r, ts = hs ++ n :: l :: (us ++ [r]) ∧ hs.map Token.kind = [.kwPublic, .kwClass]
    ∧ c.name.ReadFrom n ∧ l.kind = .lbrace ∧ ReadEach Member.ReadFrom c.members us
    ∧ r.kind = .rbrace

theorem ClassDecl.not_readFrom_nil (x : ClassDecl) : ¬ x.ReadFrom [] := by
  rintro ⟨_, _, _, _, _, h, -⟩
  simp at h

/-- A whole tree is the reading of a list of tokens; a program has a class. -/
def Root.ReadFrom : Root → List Token → Prop
  | .statements _ stmts, ts => ReadEach Stmt.ReadFrom stmts ts
  | .program _ classes, ts => classes ≠ [] ∧ ReadEach ClassDecl.ReadFrom classes ts

end JavaPrimer

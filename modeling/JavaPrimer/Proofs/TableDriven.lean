import JavaPrimer.Parsing.Program
import JavaPrimer.Proofs.BehindOperators
import JavaPrimer.Proofs.DerivedExpr
import JavaPrimer.Proofs.Openings

/-!
# Parsing by the table

Where the parser has to choose, it asks about the next few tokens. The compiled table of the
language gives the same answers at every place in every list of tokens, so a parser that asks the
table wherever there is a choice is the same parser.

* `JavaRules.opens_expression`, `JavaRules.opens_statement`, `JavaRules.opens_classMember` and
  others — what the rules of the language open with;
* `canStart`, `canStart_of_compile` — where the table lets a rule begin;
* `chosen?`, `chosen?_statement` and others — which alternative the table selects;
* `Parse.primaryBy`, `Parse.unaryBy`, `Parse.selectorBy`, `Parse.statementBy`, `Parse.memberBy` —
  the steps that choose, with the table asked;
* `Parse.primary_eq_primaryBy` and the others — these are the steps of the parser;
* `Parse.chooses_by_table` — all of them, with the table that there is.
-/

namespace JavaPrimer

open Grammar

/-! ### Expressions -/

namespace JavaRules

variable {P : Token → Bool}

theorem unique_javaGrammar : (javaGrammar.rules.map Rule.name).Nodup :=
  ((validate_eq_nil_iff spelled_javaGrammar).1 valid_javaGrammar).unique

/-- A rule with one alternative opens as its body does. -/
theorem opens_single {n : Text} {body : List Elem}
    (hr : javaGrammar.find? n = some (single n body)) (h : javaGrammar.Opens body P) :
    javaGrammar.Opens [.ref n] P :=
  (opens_ref unique_javaGrammar hr (.cons h .nil)).congr fun _ => Bool.or_false _

/-- Any token of one of a few kinds, which are those of which `p` holds. -/
theorem opens_anyOf (p : Kind → Bool) {ks : List Kind} (hp : ∀ k, ks.contains k = p k)
    {rest : List Elem} : javaGrammar.Opens (anyOf ks :: rest) fun tok => p tok.kind :=
  ((opens_kinds ks).append rest).congr fun tok => hp tok.kind

theorem opens_tok {k : Kind} {rest : List Elem} :
    javaGrammar.Opens (tok k :: rest) fun tok => tok.kind == k :=
  (opens_term.append rest).congr (accepts_token_eq k)

theorem opens_word {image : Text} (h : image ≠ []) {rest : List Elem} :
    javaGrammar.Opens (.word image :: rest) fun tok => tok.isWord image :=
  (opens_term.append rest).congr fun _ => accepts_word h

theorem opens_typeSpec : javaGrammar.Opens [.ref "typeSpec"] fun tok => tok.kind.isTypeWord :=
  opens_single rfl <| opens_anyOf Kind.isTypeWord fun k => by cases k <;> rfl

theorem opens_castType : javaGrammar.Opens [.ref "castType"] fun tok => tok.kind.isPrimitive :=
  opens_single rfl <| opens_anyOf Kind.isPrimitive fun k => by cases k <;> rfl

/-- What the alternatives of a primary expression open with. -/
def primaryOpenings : List (Token → Bool) :=
  [fun tok => (LiteralSort.ofKind? tok.kind).isSome, fun tok => tok.kind == .ident,
    fun tok => tok.kind == .lparen, fun tok => tok.kind == .kwNew]

/-- Kinds of token that a primary expression can start with. -/
def startsPrimary (k : Kind) : Bool :=
  (LiteralSort.ofKind? k).isSome || k == .ident || k == .lparen || k == .kwNew

/-- An expression starts with a unary operator, or as a primary one does. -/
theorem startsExpression_eq (k : Kind) :
    k.startsExpression = ((UnaryOp.ofKind? k).isSome || startsPrimary k) := by
  simp only [Kind.startsExpression, startsPrimary]
  cases (UnaryOp.ofKind? k).isSome <;> cases (LiteralSort.ofKind? k).isSome <;> simp [Bool.or_comm]

theorem opens_primary_alts : javaGrammar.OpenEach expressionRules[10].alts primaryOpenings :=
  .cons (opens_anyOf (fun k => (LiteralSort.ofKind? k).isSome) fun k => by cases k <;> rfl) <|
    .cons opens_tok <| .cons opens_tok <| .cons opens_tok .nil

theorem opens_primary : javaGrammar.Opens [.ref "primary"] fun tok => startsPrimary tok.kind :=
  (opens_ref unique_javaGrammar rfl opens_primary_alts).congr fun tok => by
    simp only [primaryOpenings, startsPrimary, List.any_cons, List.any_nil, Bool.or_false,
      Bool.or_assoc]

theorem opens_postfix : javaGrammar.Opens [.ref "postfix"] fun tok => startsPrimary tok.kind :=
  opens_single rfl (opens_primary.append _)

theorem opens_castOrPrimary :
    javaGrammar.Opens [.ref "castOrPrimary"] fun tok => startsPrimary tok.kind :=
  (opens_ref (r := expressionRules[8]) unique_javaGrammar rfl
    (.cons opens_tok (.cons opens_postfix .nil))).congr fun tok => by
      simp only [List.any_cons, List.any_nil, Bool.or_false]
      generalize tok.kind = k
      cases k <;> rfl

/-- What the alternatives of an operand open with. -/
def unaryOpenings : List (Token → Bool) :=
  [fun tok => (UnaryOp.ofKind? tok.kind).isSome, fun tok => startsPrimary tok.kind]

theorem opens_unary_alts : javaGrammar.OpenEach expressionRules[7].alts unaryOpenings :=
  .cons (opens_anyOf (fun k => (UnaryOp.ofKind? k).isSome) fun k => by cases k <;> rfl)
    (.cons opens_castOrPrimary .nil)

theorem opens_unary : javaGrammar.Opens [.ref "unary"] fun tok => tok.kind.startsExpression :=
  (opens_ref unique_javaGrammar rfl opens_unary_alts).congr fun tok => by
    simp only [unaryOpenings, List.any_cons, List.any_nil, Bool.or_false, startsExpression_eq]

/-- Every tier opens as the operands do, from the tightest up. -/
theorem opens_tier {k : Nat} (hk : k ≤ tiers.length) :
    javaGrammar.Opens [.ref (tierName k)] fun tok => tok.kind.startsExpression := by
  induction hk using Nat.decreasingInduction with
  | self => exact opens_unary
  | of_succ k hk ih => exact opens_single (find?_tierName k hk) (ih.append _)

theorem opens_expression :
    javaGrammar.Opens [.ref "expression"] fun tok => tok.kind.startsExpression :=
  opens_single rfl (opens_tier (Nat.zero_le _))

theorem opens_arguments :
    javaGrammar.Opens [.ref "arguments"] fun tok => tok.kind.startsExpression :=
  opens_single rfl (opens_expression.append _)

theorem opens_selector_alts : javaGrammar.OpenEach expressionRules[11].alts
    [fun tok => tok.kind == .lparen, fun tok => tok.kind == .dot] :=
  .cons opens_tok (.cons opens_tok .nil)

/-! ### Statements and members -/

theorem opens_varDecl : javaGrammar.Opens [.ref "varDecl"] fun tok => tok.kind.startsVarDecl :=
  opens_single rfl (opens_tok.opt (opens_typeSpec.append _))

/-- What the alternatives of a statement open with. -/
def statementOpenings : List (Token → Bool) :=
  [fun tok => tok.kind.startsVarDecl, Token.isWord "System", fun tok => tok.kind.startsExpression,
    fun tok => tok.kind == .lbrace]

theorem opens_statement_alts : javaGrammar.OpenEach statementRules[1].alts statementOpenings :=
  .cons opens_varDecl <|
    .cons (opens_single rfl (opens_word (by decide))) <|
    .cons (opens_single rfl (opens_expression.append _)) <|
    .cons (opens_single rfl opens_tok) .nil

theorem opens_statement :
    javaGrammar.Opens [.ref "statement"] fun tok => tok.kind.startsStatement :=
  (opens_ref unique_javaGrammar rfl opens_statement_alts).congr fun tok => by
    simp only [statementOpenings, List.any_cons, List.any_nil, Bool.or_false,
      Kind.startsStatement]
    cases hword : tok.isWord "System" with
    | false => rw [Bool.false_or, Bool.or_assoc]
    | true =>
      have hident : tok.kind = .ident := eq_of_beq (Bool.and_eq_true_iff.1 hword).1
      rw [hident]
      rfl

/-- What the alternatives of a class member open with. -/
def memberOpenings : List (Token → Bool) :=
  [fun tok => tok.kind == .kwPublic, fun tok => tok.kind.startsMember]

theorem opens_member_alts : javaGrammar.OpenEach classRules[3].alts memberOpenings :=
  .cons (opens_single rfl opens_tok) <|
    .cons (opens_single rfl ((opens_anyOf Kind.isModifier fun k => by cases k <;> rfl).many
      (opens_typeSpec.append _))) .nil

theorem opens_classMember :
    javaGrammar.Opens [.ref "classMember"] fun tok => tok.kind.startsMember :=
  (opens_ref unique_javaGrammar rfl opens_member_alts).congr fun tok => by
    simp only [memberOpenings, List.any_cons, List.any_nil, Bool.or_false]
    generalize tok.kind = k
    cases k <;> rfl

end JavaRules

/-! ### Asking the table -/

/-- Whether the next token can begin a rule, as the table tells. -/
def canStart (choices : List Choice) (rule : Text) (c : Cursor) : Bool :=
  (findChoice? choices rule).any (·.starts c.current)

/-- The name of the alternative of a rule that the table selects for the tokens ahead. -/
def chosen? (choices : List Choice) (rule : Text) (c : Cursor) : Option Text :=
  (findChoice? choices rule).bind fun choice =>
    ((choice.predict fun i => c.ahead i).bind fun i => choice.rule.alts[i]?).map Alt.name

/-- The first name whose condition holds. -/
def firstHolding : List (Text × Bool) → Option Text
  | [] => none
  | (name, holds) :: rest => if holds then some name else firstHolding rest

theorem firstHolding_append (xs ys : List (Text × Bool)) :
    firstHolding (xs ++ ys) = (firstHolding xs).or (firstHolding ys) := by
  induction xs with
  | nil => rfl
  | cons x xs ih =>
    obtain ⟨name, holds⟩ := x
    cases holds
    · exact ih
    · rfl

theorem firstHolding_map {α : Type} (name : α → Text) (p : α → Bool) (xs : List α) :
    firstHolding (xs.map fun x => (name x, p x)) = (xs.find? p).map name := by
  induction xs with
  | nil => rfl
  | cons x xs ih =>
    rw [List.map_cons, firstHolding, ih, List.find?_cons]
    cases p x <;> rfl

section Table

open JavaRules

variable {choices : List Choice} {n : Text} {r : Rule} {c : Cursor}

/-- The choice that the table of the language has for a rule. -/
theorem exists_compiled (h : javaGrammar.compile = .ok choices)
    (hr : javaGrammar.find? n = some r) :
    ∃ choice, findChoice? choices n = some choice ∧ RuleCompiled javaGrammar r choice
      ∧ r.Unambiguous javaGrammar := by
  have hwf := wellFormed_of_compile spelled_javaGrammar h
  obtain ⟨choices', hok, hall⟩ := compile_of_wellFormed spelled_javaGrammar hwf
  obtain rfl : choices = choices' := Except.ok.inj (h.symm.trans hok)
  have hmem : r ∈ javaGrammar.rules := List.mem_of_find?_eq_some hr
  have hname : r.name = n := by simpa using List.find?_some hr
  obtain ⟨choice, hfind, hchoice⟩ := findChoice?_of_compiled hall hwf.unique hmem
  exact ⟨choice, hname ▸ hfind, hchoice, hwf.unambiguous r hmem⟩

/-- A token can begin a rule when the rule opens with it. -/
theorem canStart_eq (h : javaGrammar.compile = .ok choices) (hr : javaGrammar.find? n = some r)
    {P : Token → Bool} (hopens : javaGrammar.Opens [.ref n] P) :
    canStart choices n c = P c.current := by
  obtain ⟨choice, hfind, hchoice, -⟩ := exists_compiled h hr
  have hname : r.name = n := by simpa using List.find?_some hr
  rw [canStart, hfind, Option.any_some, Choice.starts, Bool.eq_iff_iff, ← hopens.iff,
    List.any_eq_true]
  simp only [hchoice.starters, hname]

/-- The kinds that the parser asks for are those that the table has for its rules. -/
theorem canStart_of_compile (h : javaGrammar.compile = .ok choices) (c : Cursor) :
    canStart choices "varDecl" c = c.kind.startsVarDecl
      ∧ canStart choices "statement" c = c.kind.startsStatement
      ∧ canStart choices "classMember" c = c.kind.startsMember
      ∧ canStart choices "typeSpec" c = c.kind.isTypeWord
      ∧ canStart choices "expression" c = c.kind.startsExpression
      ∧ canStart choices "arguments" c = c.kind.startsExpression :=
  ⟨canStart_eq h rfl opens_varDecl, canStart_eq h rfl opens_statement,
    canStart_eq h rfl opens_classMember, canStart_eq h rfl opens_typeSpec,
    canStart_eq h rfl opens_expression, canStart_eq h rfl opens_arguments⟩

/-- A rule that looks one token ahead is chosen by its gates, and then by what its alternatives open
with. -/
theorem chosen?_eq (h : javaGrammar.compile = .ok choices) (hr : javaGrammar.find? n = some r)
    (hk : r.lookahead = 1) {Ps : List (Token → Bool)}
    (hopens : javaGrammar.OpenEach r.alts Ps) :
    chosen? choices n c = firstHolding
      ((r.alts.map fun a => (a.name, a.gatedOn fun i => c.ahead i))
        ++ (r.alts.zip Ps).map fun p => (p.1.name, p.1.gate.isEmpty && p.2 c.current)) := by
  obtain ⟨choice, hfind, hchoice, hunambiguous⟩ := exists_compiled h hr
  rw [chosen?, hfind, Option.bind_some, hchoice.rule,
    hchoice.predict_eq_find hunambiguous hk hopens, firstHolding_append, firstHolding_map,
    firstHolding_map, Option.map_or, Option.map_map]
  rfl

theorem chosen?_primary (h : javaGrammar.compile = .ok choices) :
    chosen? choices "primary" c = firstHolding
      [("literal", (LiteralSort.ofKind? c.kind).isSome), ("name", c.kind == .ident),
        ("paren", c.kind == .lparen), ("new", c.kind == .kwNew)] :=
  (chosen?_eq h rfl rfl opens_primary_alts).trans rfl

theorem chosen?_unary (h : javaGrammar.compile = .ok choices) :
    chosen? choices "unary" c = firstHolding
      [("prefix", (UnaryOp.ofKind? c.kind).isSome), ("castOrPrimary", startsPrimary c.kind)] :=
  (chosen?_eq h rfl rfl opens_unary_alts).trans rfl

theorem chosen?_selector (h : javaGrammar.compile = .ok choices) :
    chosen? choices "selector" c
      = firstHolding [("call", c.kind == .lparen), ("field", c.kind == .dot)] :=
  (chosen?_eq h rfl rfl opens_selector_alts).trans rfl

/-- The gate of the print statement. -/
theorem sequenceMatches_print (c : Cursor) : sequenceMatches (fun i => c.ahead i)
    [.word "System", .token .dot, .word "out", .token .dot] = c.startsPrint := by
  simp only [sequenceMatches, accepts_word (show Text.ofString "System" ≠ [] by decide),
    accepts_word (show Text.ofString "out" ≠ [] by decide), accepts_token_eq, Bool.and_true,
    Cursor.startsPrint, Cursor.current, Bool.and_assoc]

/-- The gate of the main method. -/
theorem sequenceMatches_main (c : Cursor) : sequenceMatches (fun i => c.ahead i)
    [.token .kwPublic, .token .kwStatic, .token .kwVoid] = c.startsMain := by
  simp only [sequenceMatches, accepts_token_eq, Bool.and_true, Cursor.startsMain, Cursor.kind,
    Cursor.current, Bool.and_assoc]

theorem chosen?_statement (h : javaGrammar.compile = .ok choices) :
    chosen? choices "statement" c = firstHolding
      [("printStmt", c.startsPrint), ("varDecl", c.kind.startsVarDecl),
        ("exprStmt", c.kind.startsExpression), ("block", c.kind == .lbrace)] := by
  rw [← sequenceMatches_print]
  exact (chosen?_eq h rfl rfl opens_statement_alts).trans rfl

theorem chosen?_classMember (h : javaGrammar.compile = .ok choices) :
    chosen? choices "classMember" c
      = firstHolding [("mainMethod", c.startsMain), ("fieldDecl", c.kind.startsMember)] := by
  rw [← sequenceMatches_main]
  exact (chosen?_eq h rfl rfl opens_member_alts).trans rfl

/-- A cast is chosen by two tokens. -/
theorem chosen?_cast_iff (h : javaGrammar.compile = .ok choices) :
    chosen? choices "castOrPrimary" c = some (Text.ofString "cast") ↔ c.startsCast = true := by
  obtain ⟨choice, hfind, hchoice, hunambiguous⟩ :=
    exists_compiled h (r := expressionRules[8]) (n := "castOrPrimary") rfl
  have hfirst : chosen? choices "castOrPrimary" c = some (Text.ofString "cast")
      ↔ choice.predict (fun i => c.ahead i) = some 0 := by
    rw [chosen?, hfind, Option.bind_some, hchoice.rule]
    match choice.predict fun i => c.ahead i with
    | none => exact iff_of_false nofun nofun
    | some 0 => exact iff_of_true rfl rfl
    | some 1 => exact iff_of_false (by decide) (by decide)
    | some (_ + 2) => exact iff_of_false nofun nofun
  have hplain : ∀ a ∈ expressionRules[8].alts, a.gate = [] := by decide
  have hgates : ∀ i, ¬ (expressionRules[8]).GateMatches (fun i => c.ahead i) i :=
    fun i ⟨a, ha, hgate, _⟩ => hgate (hplain a (List.mem_of_getElem? ha))
  have hbody : (expressionRules[8]).BodyMatches javaGrammar (fun i => c.ahead i) 0
      ↔ ∃ ts, javaGrammar.FirstSeq 2
            (.term (.token .lparen) :: ([.ref "castType"] ++ [tok .rparen, .ref "unary"])) ts
          ∧ Matches (fun i => c.ahead i) ts := by
    constructor
    · rintro ⟨a, ha, -, hfits⟩
      obtain rfl := Option.some.inj ha
      exact hfits
    · exact fun hfits => ⟨_, rfl, rfl, hfits⟩
  rw [hfirst, hchoice.predict_eq_some_iff hunambiguous, hbody, or_iff_right (hgates 0),
    and_iff_right hgates, matches_two_iff (opens_castType.append _), accepts_token_eq,
    Cursor.startsCast, Bool.and_eq_true]
  rfl

end Table

/-! ### The parser with the table -/

namespace Parse

/-- Goes on with what stands beside the alternative that the table selects, or else with
`other`. -/
def switch {α : Type} (choices : List Choice) (rule : Text) (cases : List (Text × Parse .short α))
    (other : Parse .short α) : Parse .short α := do
  let alt ← look (chosen? choices rule)
  (alt.bind fun name => cases.lookup name).getD other

/-- A literal, as the next token has it. -/
def literal : Parse .short Expr := do
  let t ← advance
  return .literal t.span ((LiteralSort.ofKind? t.kind).getD .int) t.value

/-- A unary operator, as the next token has it, and what it applies to. -/
def prefixed (operand : Parse .short Expr) : Parse .short Expr := do
  let mark ← advance
  let e ← operand
  return .unary (mark.span.through e.span) ((UnaryOp.ofKind? mark.kind).getD (.other [])) e

variable (choices : List Choice)

/-- A literal, a name, an object creation or a group, by the table. -/
def primaryBy (expr : Parse .short Expr) : Parse .short Expr :=
  switch choices "primary"
    [("literal", literal), ("name", nameExpr expr), ("paren", parenExpr expr),
      ("new", newExpr expr)]
    expressionExpected

/-- What a unary operator applies to, by the table. -/
def unaryBy (operand : Parse .short Expr) : Parse .short Expr :=
  switch choices "unary"
    [("prefix", prefixed operand),
      ("castOrPrimary", switch choices "castOrPrimary" [("cast", castExpr operand)]
        (stepped (climb operand tiers)))]
    expressionExpected

/-- What a name goes on with, by the table. -/
def selectorBy (expr : Parse .short Expr) : Parse .short (Option Selector) := do
  if ← panicking then return none
  else
    switch choices "selector" [("field", fieldSelector), ("call", callSelector expr)] (return none)

/-- One statement, by the table. -/
def statementBy (inner : Parse .short (Option Stmt)) : Parse .short (Option Stmt) := do
  let c ← look id
  if c.kind == .ident && (c.ahead 1).kind == .ident then
    fail (.unknownType c.current.value)
    return none
  else
    switch choices "statement"
      [("varDecl", some <$> varDecl), ("printStmt", some <$> printStmt),
        ("exprStmt", some <$> exprStmt),
        ("block", do
          let b ← block inner
          return some (.block b.span b.stmts))]
      (do
        fail (.statement c.current)
        return none)

/-- A member of a class, by the table. -/
def memberBy : Parse .short Member :=
  switch choices "classMember" [("mainMethod", mainMethod)] fieldDecl

variable {choices} {c : Cursor}

theorem switch_apply {α : Type} {rule : Text} {cases : List (Text × Parse .short α)}
    {other : Parse .short α} :
    switch choices rule cases other c
      = (((chosen? choices rule c).bind fun name => cases.lookup name).getD other) c := rfl

theorem switch_single {α : Type} {rule name : Text} {p other : Parse .short α} :
    switch choices rule [(name, p)] other c
      = (if chosen? choices rule c = some name then p else other) c := by
  rw [switch_apply]
  cases chosen? choices rule c with
  | none => rfl
  | some name' =>
    rw [Option.bind_some]
    by_cases hname : name' = name
    · rw [hname, List.lookup_cons_self, if_pos rfl, Option.getD_some]
    · rw [List.lookup_cons, beq_false_of_ne hname, if_neg fun h => hname (Option.some.inj h)]
      rfl

theorem member_eq_memberBy (h : javaGrammar.compile = .ok choices) : member = memberBy choices := by
  funext c
  have hmember : member c = (if c.startsMain then mainMethod else fieldDecl) c := rfl
  rw [hmember, memberBy, switch_apply, chosen?_classMember h]
  cases c.startsMain with
  | true => rfl
  | false => cases c.kind.startsMember <;> rfl

theorem selector_eq_selectorBy (h : javaGrammar.compile = .ok choices) (expr : Parse .short Expr) :
    selector expr = selectorBy choices expr := by
  funext c
  rw [selector, selectorBy, panicking, look_bind_apply, look_bind_apply]
  cases c.panicking with
  | true => rfl
  | false =>
    rw [if_neg Bool.false_ne_true, if_neg Bool.false_ne_true, look_bind_apply, switch_apply,
      chosen?_selector h]
    generalize c.kind = k
    cases k <;> rfl

/-- A literal, where one is next. -/
theorem literal_apply {sort : LiteralSort} (hsort : LiteralSort.ofKind? c.kind = some sort) :
    literal c = (advance >>= fun _ =>
      Pure.pure (Expr.literal c.current.span sort c.current.value)) c := by
  rw [literal, advance_bind_apply, advance_bind_apply,
    show LiteralSort.ofKind? c.current.kind = _ from hsort]
  rfl

theorem primary_eq_primaryBy (h : javaGrammar.compile = .ok choices) (expr : Parse .short Expr) :
    primary expr = primaryBy choices expr := by
  funext c
  rw [primaryBy, switch_apply, chosen?_primary h, primary_apply]
  cases hsort : LiteralSort.ofKind? c.kind with
  | some sort => exact (literal_apply hsort).symm
  | none =>
    generalize c.kind = k
    cases k <;> rfl

/-- A unary operator, where one is next. -/
theorem prefixed_apply {op : UnaryOp} (hop : UnaryOp.ofKind? c.kind = some op)
    (operand : Parse .short Expr) : prefixed operand c =
    (advance >>= fun mark => operand >>= fun e =>
      Pure.pure (Expr.unary (mark.span.through e.span) op e)) c := by
  rw [prefixed, advance_bind_apply, advance_bind_apply,
    show UnaryOp.ofKind? c.current.kind = _ from hop]
  rfl

theorem stepped_eq_expressionExpected (hk : c.kind.startsExpression = false)
    (expr : Parse .short Expr) :
    stepped expr c = expressionExpected c := by
  have hprimary := primary_eq_expressionExpected hk expr
  have hpanic : (expressionExpected c).cursor.panicking = true := panicking_fail _ c
  refine (stepped_none ?_).trans hprimary
  rw [hprimary, stepOp?, hpanic, if_pos rfl]

theorem unaryWith_eq_unaryBy (h : javaGrammar.compile = .ok choices) (operand : Parse .short Expr) :
    unaryWith operand = unaryBy choices operand := by
  funext c
  rw [unaryWith, look_bind_apply, unaryBy, switch_apply, chosen?_unary h]
  cases hop : UnaryOp.ofKind? c.kind with
  | some op => exact (prefixed_apply hop operand).symm
  | none =>
    show (if c.startsCast then castExpr operand else stepped (climb operand tiers)) c = _
    cases hprimary : JavaRules.startsPrimary c.kind with
    | true =>
      show _ = switch choices "castOrPrimary" _ _ c
      simp only [switch_single, chosen?_cast_iff h]
    | false =>
      show _ = expressionExpected c
      have hk : c.kind.startsExpression = false := by
        rw [JavaRules.startsExpression_eq, hop, hprimary]
        rfl
      have hparen : c.kind ≠ .lparen := by
        intro hparen
        rw [hparen] at hprimary
        cases hprimary
      rw [Cursor.startsCast, beq_false_of_ne hparen, Bool.false_and, if_neg Bool.false_ne_true,
        stepped_eq_expressionExpected hk]

theorem statementWith_eq_statementBy (h : javaGrammar.compile = .ok choices)
    (inner : Parse .short (Option Stmt)) : statementWith inner = statementBy choices inner := by
  funext c
  rw [statementWith, look_bind_apply, statementBy, look_bind_apply, id]
  split
  · rfl
  · rw [switch_apply, chosen?_statement h]
    cases c.startsPrint with
    | true => rfl
    | false =>
      cases c.kind.startsVarDecl with
      | true => rfl
      | false =>
        cases c.kind.startsExpression with
        | true => rfl
        | false => cases c.kind == .lbrace <;> rfl

/-- The language has a table, and the parser chooses as the table does. -/
theorem chooses_by_table : ∃ choices, javaGrammar.compile = .ok choices
    ∧ (∀ operand, unaryWith operand = unaryBy choices operand)
    ∧ (∀ expr, primary expr = primaryBy choices expr)
    ∧ (∀ expr, selector expr = selectorBy choices expr)
    ∧ (∀ inner, statementWith inner = statementBy choices inner)
    ∧ member = memberBy choices := by
  obtain ⟨choices, h⟩ := compile_javaGrammar
  exact ⟨choices, h, unaryWith_eq_unaryBy h, primary_eq_primaryBy h, selector_eq_selectorBy h,
    statementWith_eq_statementBy h, member_eq_memberBy h⟩

end Parse

end JavaPrimer

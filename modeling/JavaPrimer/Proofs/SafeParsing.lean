import JavaPrimer.Proofs.BetweenBraces
import JavaPrimer.Proofs.Positions
import JavaPrimer.Proofs.Termination

/-!
# Parsing is safe

Any list of tokens can be parsed, whatever their kinds, values, spans and flags are, and wherever
an end of input stands in it, if one does. The parser has the whole list before it, and what it does
at an end of input in the middle is up to it: to look at what is behind it, to consume it, to go on.
The run ends all the same, and it ends at the first end of input; on the way it never moves back and
looks at no token outside the list; every operand of its tree is there.

* `Stmt.Whole`, `Root.Whole` — trees without a missing operand;
* `Parse.leads_statement`, `Parse.leads_classDecl_whole` — every construct gives such a tree;
* `RunsSafely`, `parse_safe` — all about a run.
-/

namespace JavaPrimer

/-- A statement that misses no operand. -/
inductive Stmt.Whole : Stmt → Prop
  | simple {x} (h : Stmt.Simple x) : Stmt.Whole x
  | block {s stmts} (h : ∀ x ∈ stmts, Stmt.Whole x) : Stmt.Whole (.block s stmts)

/-- A block that misses no operand. -/
def Block.Whole (b : Block) : Prop := ∀ x ∈ b.stmts, x.Whole

/-- A member that misses no operand. -/
inductive Member.Whole : Member → Prop
  | field {x} (h : Member.IsField x) : Member.Whole x
  | main {s name param body} (h : ∀ b ∈ body, Block.Whole b) :
    Member.Whole (.main s name param body)

/-- A class that misses no operand. -/
def ClassDecl.Whole (x : ClassDecl) : Prop := ∀ m ∈ x.members, m.Whole

/-- A tree that misses no operand. -/
def Root.Whole : Root → Prop
  | .program _ classes => ∀ x ∈ classes, x.Whole
  | .statements _ stmts => ∀ x ∈ stmts, x.Whole

namespace Parse

variable {α : Type} {c : Cursor}

/-! ### Values of repetitions -/

theorem leads_recovering {skip : Nat → Cursor → Cursor} {item : Parse .short α} {P : α → Prop}
    (h : item.Leads c fun x _ => P x) : (recovering skip item).Leads c fun x _ => P x := by
  rw [Leads, recovering_apply]
  exact h

theorem leads_whileMore {more : Cursor → Bool} {skip : Nat → Cursor → Cursor}
    {item : Parse .short (Option α)} {P : α → Prop}
    (h : ∀ d, item.Leads d fun x _ => ∀ a ∈ x, P a) :
    (whileMore more (recovering skip item)).Leads c fun xs _ => ∀ a ∈ xs, P a := by
  have hcollect : ∀ n d, (collect more (recovering skip item) n).Leads d
      fun xs _ => ∀ a ∈ xs, P a := by
    intro n
    induction n with
    | zero => exact fun d _ ha => nomatch ha
    | succ n ih =>
      intro d
      apply leads_look_bind
      by_cases hgo : more d = true
      · rw [if_pos hgo]
        apply (leads_recovering (h d)).bind
        intro x e hx
        apply (ih e).bind
        intro xs _ hxs a ha
        rcases List.mem_append.1 ha with ha | ha
        · exact hx a (Option.mem_toList.1 ha)
        · exact hxs a ha
      · rw [if_neg hgo]
        exact fun _ ha => nomatch ha
  exact hcollect _ c

/-! ### Constructs -/

theorem leads_block {stmt : Parse .short (Option Stmt)}
    (h : ∀ d, stmt.Leads d fun x _ => ∀ y ∈ x, y.Whole) :
    (block stmt).Leads c fun b _ => b.Whole := by
  apply leads_spanned
  apply leads_advance_bind
  apply (leads_whileMore h).bind
  intro stmts d hstmts
  apply (leads_expect .rbrace).bind
  exact fun _ _ _ => hstmts

theorem leads_statementWith {inner : Parse .short (Option Stmt)}
    (h : ∀ d, inner.Leads d fun x _ => ∀ y ∈ x, y.Whole) :
    (statementWith inner).Leads c fun x _ => ∀ y ∈ x, y.Whole := by
  have hsimple : ∀ {p : Parse .short Stmt}, p.Passes c Stmt.Simple →
      (some <$> p).Leads c fun x _ => ∀ y ∈ x, y.Whole := by
    intro p hp
    rw [Leads, map_apply]
    intro y hy
    cases hy
    exact .simple hp.2
  apply leads_look_bind
  dsimp only [id]
  split
  · exact fun _ hy => absurd hy (Option.not_mem_none _)
  split
  · next hs => exact hsimple (passes_printStmt hs)
  split
  · exact hsimple passes_varDecl
  split
  · exact hsimple passes_exprStmt
  split
  · apply (leads_block h).bind
    intro b _ hb y hy
    cases hy
    exact .block hb
  · exact fun _ hy => absurd hy (Option.not_mem_none _)

theorem leads_statement : statement.Leads c fun x _ => ∀ y ∈ x, y.Whole := by
  have hwithin : ∀ n d, (statementWithin n).Leads d fun x _ => ∀ y ∈ x, y.Whole := by
    intro n
    induction n with
    | zero => exact fun d _ hy => nomatch hy
    | succ n ih => exact fun d => leads_statementWith ih
  have hstep : statement c = statementWithin (c.rest.length + 1) c := rfl
  rw [Leads, hstep]
  exact hwithin (c.rest.length + 1) c

theorem leads_member : member.Leads c fun x _ => x.Whole := by
  apply leads_look_bind
  split
  · next hs =>
    rcases leads_mainMethod hs with ⟨-, s, name, param, hvalue⟩ | ⟨d, s, name, param, -, -, -, hvalue⟩
    · rw [Leads, hvalue]
      exact .main fun _ hb => absurd hb (Option.not_mem_none _)
    · rw [Leads, hvalue]
      apply Member.Whole.main
      intro b hb
      cases hb
      exact leads_block fun _ => leads_statement
  · exact .field passes_fieldDecl.2

theorem leads_classDecl_whole : classDecl.Leads c fun x _ => x.Whole := by
  have hnone : ∀ m ∈ ([] : List Member), m.Whole := fun _ hm => nomatch hm
  have hmember : ∀ d, (some <$> member).Leads d fun x _ => ∀ m ∈ x, m.Whole := by
    intro d
    rw [Leads, map_apply]
    intro m hm
    cases hm
    exact leads_member
  apply leads_spanned
  apply leads_advance_bind
  apply leads_advance_bind
  apply Leads.bind (Q := fun _ _ => True) trivial
  rintro ⟨name, there⟩ d -
  cases there
  · exact hnone
  · apply (leads_expect .lbrace).bind
    intro opened e _
    cases opened
    · exact hnone
    · apply (leads_whileMore hmember).bind
      intro members f hmembers
      apply (leads_expect .rbrace).bind
      exact fun _ _ _ => hmembers

theorem leads_classes : classes.Leads c fun xs _ => ∀ x ∈ xs, x.Whole := by
  apply leads_whileMore
  intro d
  apply leads_look_bind
  split
  · rw [Leads, map_apply]
    intro x hx
    cases hx
    exact leads_classDecl_whole
  · exact fun _ hx => absurd hx (Option.not_mem_none _)

theorem leads_statements : statements.Leads c fun x _ => x.Whole := by
  apply leads_spanned
  apply (leads_whileMore fun d => leads_statement).bind
  exact fun stmts _ hstmts => hstmts

theorem leads_program : program.Leads c fun x _ => x.Whole := by
  have hclasses : (listen classes).Leads c fun x _ => ∀ y ∈ x.1, y.Whole := leads_classes
  apply leads_spanned
  apply hclasses.bind
  rintro ⟨xs, errors⟩ d hxs
  dsimp only
  split <;> exact hxs

end Parse

/-! ### A run over a list of tokens -/

/-- A run over a whole list of tokens that ends where it should and is safe on the way. -/
structure RunsSafely (mode : Mode) (tokens : List Token) : Prop where
  /-- Every recursion and every loop ends. -/
  terminates : Parse.Terminates .whole
  /-- The run starts at the first token. -/
  starts : Cursor.StandsAt (closedOff tokens) 0 (.ofTokens tokens)
  /-- The index is always inside the list. -/
  inside : ∀ {i c}, Cursor.StandsAt (closedOff tokens) i c → i < (closedOff tokens).length
  /-- Looking ahead sees what stands there, and never anything outside the list. -/
  seen : ∀ {i c}, Cursor.StandsAt (closedOff tokens) i c → ∀ k,
    ∃ h : lastOr (closedOff tokens) (i + k) < (closedOff tokens).length,
      (closedOff tokens)[lastOr (closedOff tokens) (i + k)] = c.ahead k
  /-- Consuming a token moves on by one, unless the token is the last, of whatever kind it is. -/
  moves : ∀ {i c}, Cursor.StandsAt (closedOff tokens) i c →
    Cursor.StandsAt (closedOff tokens) (lastOr (closedOff tokens) (i + 1)) c.advance
  /-- No function of the parser moves back or leaves the list, wherever it starts. -/
  onward : ∀ {α : Type} {p : Parse .whole α}, p.Construct → ∀ {i c},
    Cursor.StandsAt (closedOff tokens) i c →
      ∃ j, i ≤ j ∧ Cursor.StandsAt (closedOff tokens) j (p c).cursor
  /-- The run ends at the first end of input. -/
  ends : Cursor.StandsAt (closedOff tokens) (endIndex (closedOff tokens))
    (mode.parser (.ofTokens tokens)).cursor
  /-- Every token before it has been consumed, once and in order. -/
  consumed : (Cursor.ofTokens tokens : Cursor .whole).Consumed
    ((closedOff tokens).take (endIndex (closedOff tokens))) (mode.parser (.ofTokens tokens)).cursor
  /-- Wherever an expression is read, there is one, and no operand of it is missing. -/
  operands : ∀ {i c}, Cursor.StandsAt (closedOff tokens) i c → (Parse.expression c).value.Whole
  /-- No operand is missing in the whole tree. -/
  tree : (parse mode tokens).root.Whole
  /-- What stands behind the first end of input has no influence. -/
  unread : ∀ behind, parse mode ((closedOff tokens).take (endIndex (closedOff tokens) + 1)
    ++ behind) = parse mode tokens

theorem Mode.construct_parser (mode : Mode) : (mode.parser (ρ := .whole)).Construct := by
  cases mode
  · exact .program
  · exact .statements

theorem Mode.rest_parser (mode : Mode) (c : Cursor) : (mode.parser c).cursor.rest = [] := by
  cases mode
  · exact Parse.rest_program c
  · exact Parse.rest_statements c

theorem Mode.forward_parser (mode : Mode) : Parse.Forward (mode.parser (ρ := .short)) := by
  cases mode
  · exact Parse.forward_program
  · exact Parse.forward_statements

theorem Mode.whole_parser (mode : Mode) (c : Cursor) : (mode.parser c).value.Whole := by
  cases mode
  · exact Parse.leads_program
  · exact Parse.leads_statements

/-- A run consumes the tokens before the first end of input, and no other one. -/
theorem Mode.consumed_parser (mode : Mode) (tokens : List Token) :
    (Cursor.ofTokens tokens : Cursor .whole).Consumed (Cursor.ofTokens tokens : Cursor .whole).rest
      (mode.parser (.ofTokens tokens)).cursor := by
  obtain ⟨ts, hts⟩ := (mode.forward_parser (.ofTokens tokens)).consumed
  have hrest := hts.rest
  rw [mode.rest_parser, List.append_nil] at hrest
  have hsame : (Cursor.ofTokens tokens : Cursor .whole).rest = ts := by
    rw [← hrest, Cursor.rest_ofTokens, Cursor.rest_ofTokens]
  rw [hsame, mode.parser_ofTokens (ρ := .whole)]
  constructor
  · rw [hsame]
    exact hrest.symm.trans hts.rest
  · rw [(Cursor.fields_ofTokens tokens).1, ← (Cursor.fields_ofTokens (ρ := .short) tokens).1]
    exact hts.last

/-- A run ends at the first end of input. -/
theorem Mode.standsAt_parser (mode : Mode) (tokens : List Token) :
    Cursor.StandsAt (closedOff tokens) (endIndex (closedOff tokens))
      (mode.parser (.ofTokens tokens)).cursor := by
  have hstarts := Cursor.standsAt_ofTokens tokens
  have hforward := Parse.forward_of_construct mode.construct_parser (.ofTokens tokens)
  obtain ⟨j, -, hj⟩ := hstarts.onward hforward
  -- as many tokens are behind the place as were behind the first end of input at the start
  have hrun := mode.parser_ofTokens (ρ := .whole) tokens
  have hrest : (mode.parser (.ofTokens tokens : Cursor .whole)).cursor.rest = [] := by
    rw [hrun]
    exact mode.rest_parser (.ofTokens tokens)
  have hbehind : (mode.parser (.ofTokens tokens : Cursor .whole)).cursor.behind
      = (Cursor.ofTokens tokens : Cursor .whole).behind := by
    rw [hrun]
    rfl
  have hstart := congrArg List.length hstarts.ahead
  have hend := congrArg List.length hj.ahead
  have hinside := hj.inside
  rw [Cursor.length_tokensAhead, List.length_drop] at hstart hend
  rw [hrest, hbehind, List.length_nil] at hend
  have hindex : endIndex (closedOff tokens) = j := by
    rw [hstarts.endIndex_eq]
    omega
  rwa [hindex]

/-- Parsing any list of tokens in any mode ends at the first end of input, and is safe. -/
theorem parse_safe (mode : Mode) (tokens : List Token) : RunsSafely mode tokens := by
  have hstarts := Cursor.standsAt_ofTokens tokens
  refine ⟨Parse.terminates .whole, hstarts, fun hc => hc.inside, ?seen, fun hc => hc.advance,
    ?onward, mode.standsAt_parser tokens, ?consumed, ?operands, ?tree, ?unread⟩
  case seen => exact fun hc k => List.getElem?_eq_some_iff.1 (hc.seen k)
  case onward => exact fun hp _ _ hc => hc.onward (Parse.forward_of_construct hp _)
  case consumed =>
    have hfront : (closedOff tokens).take (endIndex (closedOff tokens))
        = (Cursor.ofTokens tokens : Cursor .whole).rest := by
      have hsplit := hstarts.ahead
      rw [List.drop_zero, Cursor.tokensAhead] at hsplit
      rw [hstarts.endIndex_eq, ← hsplit, List.take_left]
    rw [hfront]
    exact mode.consumed_parser tokens
  case operands =>
    intro i c hc
    obtain ⟨-, hwhole⟩ := Parse.passes_expression (c := c.short)
    rwa [Parse.stopsShort_expression.at hc.isEnd, Step.value_holding]
  case tree =>
    rw [parse_short]
    exact mode.whole_parser (.ofTokens tokens)
  case unread =>
    intro behind
    rw [parse_short, parse_short, parseWith, parseWith, Cursor.ofTokens_closedOff]

end JavaPrimer

import Mathlib.Data.List.GetD
import BooleanSteps.Formula.Descent
import BooleanSteps.Proofs.GrammarCompleteness
import BooleanSteps.Proofs.Refusals
import BooleanSteps.Proofs.ViablePrefixes

/-!
# What a procedure does to unfinished groups

The reader with unfinished groups can be resumed at any place of the tokens. Each procedure of
reading by descent stands for a stretch of its reading: it starts at groups of a certain form and
leaves them with its phrase taken in. The groups hold the operands of a connective in a list, where
the procedures join one operand after the other.
-/

namespace BooleanSteps

variable {tokens : List Token} {position : Nat}

/-! ## The tokens at a place -/

theorem tokenAt_of_le (h : tokens.length ≤ position) : tokenAt tokens position = .endOfInput :=
  List.getD_eq_default tokens _ h

theorem lt_length_of_tokenAt (h : tokenAt tokens position ≠ .endOfInput) :
    position < tokens.length :=
  Nat.lt_of_not_le fun hle => h (tokenAt_of_le hle)

theorem drop_eq_tokenAt_cons (h : position < tokens.length) :
    tokens.drop position = tokenAt tokens position :: tokens.drop (position + 1) := by
  rw [List.drop_eq_getElem_cons h, tokenAt, List.getD_eq_getElem tokens _ h]

/-- Joining operands one after the other is joining all of them. -/
theorem Formula.join_concat (c : Connective) {fs : List Formula} (hne : fs ≠ []) (f : Formula) :
    join c (fs ++ [f]) = join c [join c fs, f] := by
  match fs, hne with
  | [g], _ => rfl
  | g :: h :: fs, _ => simp [join]

/-- The procedure that reads the operands of a connective. -/
def Procedure.operand : Connective → Procedure
  | .and => .unary
  | .or => .exclusive

/-- The procedure that joins the operands of a connective. -/
def Procedure.joining : Connective → Procedure
  | .and => .conjunction
  | .or => .disjunction

namespace Reading

open OpenGroup

variable {r next : Reading} {fault : ParseFault} {u u' : Unfinished} {f g : Formula}

/-! ## Resuming -/

/-- Reads on from a place of the tokens. -/
def resume (tokens : List Token) (position : Nat) (r : Reading) : Except ParseError Formula :=
  r.read maxDepth position (tokens.drop position)

theorem resume_of_feed (hend : tokenAt tokens position ≠ .endOfInput)
    (h : r.feed maxDepth (tokenAt tokens position) = .ok next) :
    resume tokens position r = resume tokens (position + 1) next := by
  rw [resume, drop_eq_tokenAt_cons (lt_length_of_tokenAt hend), read_cons hend h, resume]

/-- At an end the formula must be complete. -/
theorem resume_of_end (hend : tokenAt tokens position = .endOfInput) :
    resume tokens position r = r.finish.mapError (⟨·, .endOfInput, position⟩) := by
  by_cases hlt : position < tokens.length
  · rw [resume, drop_eq_tokenAt_cons hlt, hend, read]
  · rw [resume, List.drop_eq_nil_of_le (Nat.le_of_not_lt hlt), read]

theorem resume_of_rejects (h : r.Rejects maxDepth (tokenAt tokens position) fault) :
    resume tokens position r = .error ⟨fault, tokenAt tokens position, position⟩ := by
  by_cases hend : tokenAt tokens position = .endOfInput
  · rw [hend] at h
    rw [resume_of_end hend, (if_pos rfl).mp h, hend]
    rfl
  · rw [resume, drop_eq_tokenAt_cons (lt_length_of_tokenAt hend), h.read_eq]

/-! ## Where a procedure starts and what it leaves -/

/-- A phrase that the procedure reads may stand behind the group, before the token. -/
def Starts : Procedure → OpenGroup → Token → Prop
  | .expression, group, _ | .disjunction, group, _ => group = .empty
  | .exclusive, group, _ => group.chained = [] ∧ group.conjuncts = [] ∧ group.negations = 0
  | .conjunction, group, _ => group.conjuncts = [] ∧ group.negations = 0
  | .unary, _, _ => True
  | .primary, _, token => token ≠ .not

/-- The second groups are the first ones with the formula taken in as a chain with some links. -/
def Links (links : Nat) (u : Unfinished) (f : Formula) (u' : Unfinished) : Prop :=
  ∃ chained conjuncts, chained.length = links ∧
    u' = ⟨{ u.group with chained, conjuncts }, u.enclosing⟩ ∧
    .xorChain chained (.join .and conjuncts) = f

/-- The second groups are the first ones with the formula taken in as a phrase of the procedure. -/
def Leaves : Procedure → Unfinished → Formula → Unfinished → Prop
  | .expression, u, f, u' | .disjunction, u, f, u' =>
      ∃ group : OpenGroup, u' = ⟨group, u.enclosing⟩ ∧ group.negations = 0 ∧ group.formula = f
  | .exclusive, u, f, u' => ∃ links, Links links u f u'
  | .conjunction, u, f, u' =>
      ∃ conjuncts, conjuncts ≠ [] ∧ u' = ⟨{ u.group with conjuncts }, u.enclosing⟩ ∧
        .join .and conjuncts = f
  | .unary, u, f, u' | .primary, u, f, u' => u' = u.modify (·.receive f)

/-- The tokens that go on with a phrase of the procedure. -/
def continuations : Procedure → List Token
  | .unary | .primary => []
  | .conjunction => [.connective .and]
  | .exclusive => [.xor, .connective .and]
  | .expression | .disjunction => [.connective .or, .xor, .connective .and]

/-! ## Operands of a connective -/

/-- The first operand starts where all operands do. -/
theorem starts_operand {c : Connective} {group : OpenGroup} {token : Token}
    (h : Starts (.joining c) group token) : Starts (.operand c) group token := by
  cases c with
  | and => trivial
  | or =>
      obtain rfl : group = .empty := h
      exact ⟨rfl, rfl, rfl⟩

/-- The first operand is joined to nothing. -/
theorem leaves_joining {c : Connective} {token : Token}
    (hstarts : Starts (.joining c) u.group token) (h : Leaves (.operand c) u f u') :
    Leaves (.joining c) u f u' := by
  obtain ⟨⟨disjuncts, chained, conjuncts, negations⟩, enclosing⟩ := u
  cases c with
  | and =>
      obtain ⟨rfl, rfl⟩ : conjuncts = [] ∧ negations = 0 := hstarts
      obtain rfl : u' = _ := h
      exact ⟨[f], List.cons_ne_nil f [], rfl, rfl⟩
  | or =>
      obtain ⟨rfl, rfl, rfl, rfl⟩ := OpenGroup.mk.inj hstarts
      obtain ⟨-, chained, conjuncts, -, rfl, rfl⟩ := h
      exact ⟨_, rfl, rfl, rfl⟩

/-- Behind the connective an operand may start, and the operand is joined to those before it. -/
theorem exists_feed_connective {c : Connective} {token : Token}
    (hstarts : Starts (.joining c) u.group token) (h : Leaves (.joining c) u f u') :
    ∃ behind : Unfinished,
      (Reading.complete u').feed maxDepth (.connective c) = .ok (.awaiting behind) ∧
      (∀ token, Starts (.operand c) behind.group token) ∧ behind.depth = u.depth ∧
      ∀ g u'', Leaves (.operand c) behind g u'' → Leaves (.joining c) u (.join c [f, g]) u'' := by
  obtain ⟨⟨disjuncts, chained, conjuncts, negations⟩, enclosing⟩ := u
  cases c with
  | and =>
      obtain ⟨rfl, rfl⟩ : conjuncts = [] ∧ negations = 0 := hstarts
      obtain ⟨conjuncts, hne, rfl, rfl⟩ := h
      refine ⟨_, rfl, fun _ => trivial, rfl, ?_⟩
      rintro g u'' rfl
      exact ⟨conjuncts ++ [g], by simp, rfl, Formula.join_concat .and hne g⟩
  | or =>
      obtain ⟨rfl, rfl, rfl, rfl⟩ := OpenGroup.mk.inj hstarts
      obtain ⟨⟨disjuncts, chained, conjuncts, negations⟩, rfl, hnegations, rfl⟩ := h
      obtain rfl : negations = 0 := hnegations
      refine ⟨_, rfl, fun _ => ⟨rfl, rfl, rfl⟩, rfl, ?_⟩
      rintro g u'' ⟨-, chained', conjuncts', -, rfl, rfl⟩
      have hne : disjuncts ++ [OpenGroup.chain ⟨disjuncts, chained, conjuncts, 0⟩] ≠ [] := by simp
      exact ⟨_, rfl, rfl, Formula.join_concat .or hne _⟩

/-! ## Chains -/

theorem links_zero {token : Token} (hstarts : Starts .exclusive u.group token)
    (h : Leaves .conjunction u f u') : Links 0 u f u' := by
  obtain ⟨⟨disjuncts, chained, conjuncts, negations⟩, enclosing⟩ := u
  obtain ⟨rfl, rfl, rfl⟩ : chained = [] ∧ conjuncts = [] ∧ negations = 0 := hstarts
  obtain ⟨conjuncts, -, rfl, rfl⟩ := h
  exact ⟨[], conjuncts, rfl, rfl, rfl⟩

/-- Each link of a chain keeps a level open. -/
theorem depth_of_links {links : Nat} {token : Token} (hstarts : Starts .exclusive u.group token)
    (h : Links links u f u') : u'.depth = u.depth + links := by
  obtain ⟨⟨disjuncts, chained, conjuncts, negations⟩, enclosing⟩ := u
  obtain ⟨rfl, rfl, rfl⟩ : chained = [] ∧ conjuncts = [] ∧ negations = 0 := hstarts
  obtain ⟨chained, conjuncts, rfl, rfl, rfl⟩ := h
  simp only [Unfinished.depth, depth, List.length_nil]
  omega

theorem depth_extendChain (u : Unfinished) : (u.modify .extendChain).depth = u.depth + 1 := by
  simp only [Unfinished.depth, Unfinished.modify, extendChain, depth, List.length_append,
    List.length_singleton]
  omega

/-- Behind `^` another operand may start. -/
theorem starts_extendChain {links : Nat} {token : Token}
    (hstarts : Starts .exclusive u.group token) (h : Links links u f u') (token' : Token) :
    Starts .conjunction (u'.modify .extendChain).group token' := by
  obtain ⟨chained, conjuncts, -, rfl, -⟩ := h
  exact ⟨rfl, hstarts.2.2⟩

/-- The operand behind `^` is one more link of the chain. -/
theorem links_succ {links : Nat} {u'' : Unfinished} (h : Links links u f u')
    (hg : Leaves .conjunction (u'.modify .extendChain) g u'') :
    Links (links + 1) u (.xor f g) u'' := by
  obtain ⟨chained, conjuncts, rfl, rfl, rfl⟩ := h
  obtain ⟨conjuncts', -, rfl, rfl⟩ := hg
  exact ⟨chained ++ [.join .and conjuncts], conjuncts', by simp, rfl,
    Formula.xorChain_append _ _ _⟩

/-! ## Negations and parentheses -/

/-- Where an operand is awaited, the token opens a level, behind which a phrase of the procedure may
start. -/
structure Opening (token : Token) (p : Procedure) (behind : Unfinished → Unfinished) : Prop where
  feed_eq (u : Unfinished) :
    (Reading.awaiting u).feed maxDepth token = descend maxDepth u (behind u)
  depth_eq (u : Unfinished) : (behind u).depth = u.depth + 1
  starts (u : Unfinished) (next : Token) : Starts p (behind u).group next

theorem Opening.ne_endOfInput {token : Token} {p : Procedure} {behind : Unfinished → Unfinished}
    (h : Opening token p behind) : token ≠ .endOfInput := by
  rintro rfl
  have hfeed := h.feed_eq .start
  cases hfeed

theorem opening_not : Opening .not .unary (·.modify .negate) :=
  ⟨fun _ => rfl, depth_negate, fun _ _ => trivial⟩

theorem opening_openParen : Opening .openParen .expression .enter :=
  ⟨fun _ => rfl, depth_enter, fun _ _ => rfl⟩

theorem leaves_not (h : Leaves .unary (u.modify .negate) f u') : Leaves .unary u (.not f) u' := by
  obtain rfl : u' = _ := h
  simp only [Leaves, Unfinished.modify, receive, negate, Formula.negated, Formula.negated_not]

theorem feed_closeParen (h : Leaves .expression u.enter f u') :
    (Reading.complete u').feed maxDepth .closeParen =
      .ok (.complete (u.modify (·.receive f))) := by
  obtain ⟨group, rfl, -, rfl⟩ := h
  rfl

/-! ## Refusals -/

theorem rejects_operand {token : Token} (hvar : ∀ name, token ≠ .var name)
    (hconst : ∀ value, token ≠ .const value) (hopen : token ≠ .openParen) (hnot : token ≠ .not) :
    (Reading.awaiting u).Rejects maxDepth token .expectedOperand := by
  cases token with
  | var name => exact absurd rfl (hvar name)
  | const value => exact absurd rfl (hconst value)
  | openParen => exact absurd rfl hopen
  | not => exact absurd rfl hnot
  | closeParen | connective | xor | endOfInput => rfl

/-- Inside a parenthesis, a token that neither goes on with the disjunction nor closes the
parenthesis is refused. -/
theorem rejects_closing {token : Token} (h : Leaves .expression u.enter f u')
    (hstops : token ∉ continuations .expression) (hclose : token ≠ .closeParen) :
    (Reading.complete u').Rejects maxDepth token .expectedClosing := by
  obtain ⟨group, rfl, -, -⟩ := h
  cases token with
  | closeParen => exact absurd rfl hclose
  | xor => exact absurd (by decide) hstops
  | connective c => cases c <;> exact absurd (by decide) hstops
  | openParen | not | const | var | endOfInput => rfl

/-- Outside all parentheses, a token that does not go on with the disjunction is refused. -/
theorem rejects_trailing {token : Token} (h : Leaves .expression .start f u')
    (hstops : token ∉ continuations .expression) (hend : token ≠ .endOfInput) :
    (Reading.complete u').Rejects maxDepth token .trailing := by
  obtain ⟨group, rfl, -, -⟩ := h
  cases token with
  | endOfInput => exact absurd rfl hend
  | xor => exact absurd (by decide) hstops
  | connective c => cases c <;> exact absurd (by decide) hstops
  | openParen | closeParen | not | const | var => rfl

theorem finish_of_leaves (h : Leaves .expression .start f u') :
    (Reading.complete u').finish = .ok f := by
  obtain ⟨group, rfl, -, rfl⟩ := h
  rfl

end Reading

end BooleanSteps

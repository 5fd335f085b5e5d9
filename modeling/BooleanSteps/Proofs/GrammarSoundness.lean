import BooleanSteps.Proofs.GrammarCompleteness

/-!
# What is read is derived by the grammar

At every point of a reading, the tokens read so far are accounted for: those of each
unfinished group are the phrases it has completed, with their separators, and the
negations that wait. One token keeps this account, so at the end the tokens are a
phrase, written for the formula that has been read.
-/

namespace BooleanSteps

variable {limit level : Nat}

/-! ## Phrases of several parts -/

/-- An operand behind negations. -/
def negatedPhrase (n : Nat) (p : Phrase) : Phrase :=
  (List.replicate n .not ++ p.1, .negated n p.2)

theorem Derives.negatedPhrase {p : Phrase} (n : Nat) (hlimit : ∀ i, i < n → level + i < limit)
    (h : Derives limit .unary (level + n) p.1 p.2) :
    Derives limit .unary level (negatedPhrase n p).1 (negatedPhrase n p).2 := by
  induction n generalizing level with
  | zero => exact h
  | succ n ih =>
      -- The first negation stands at the level, the others one above it.
      refine Derives.not (hlimit 0 (Nat.zero_lt_succ n)) (ih ?_ ?_)
      · intro i hi
        have hlt := hlimit (i + 1) (Nat.succ_lt_succ hi)
        omega
      · rwa [Nat.add_right_comm]

/-- A chain of `^` by the operands before the last one and the last one. -/
theorem Derives.exclusive_append {chained : List Phrase} {last : Phrase}
    (hlimit : ∀ i, i < chained.length → level + i < limit)
    (h : Climbs limit level chained)
    (hlast : Derives limit .conjunction (level + chained.length) last.1 last.2) :
    Derives limit .exclusive level (followed .xor chained ++ last.1)
      (.xorChain (chained.map Prod.snd) last.2) := by
  rw [← separated_concat]
  have hall : Climbs limit level (chained ++ [last]) := h.append hlast
  cases chained with
  | nil => exact Derives.exclusive last [] (fun i hi => absurd hi (Nat.not_lt_zero i)) hall
  | cons first others =>
      have hchain : Formula.xorChain ((first :: others).map Prod.snd) last.2 =
          (others ++ [last]).foldl (fun f p => .xor f p.2) first.2 :=
        (Formula.foldl_xor_eq_xorChain rfl).symm
      rw [hchain]
      refine Derives.exclusive first (others ++ [last]) ?_ hall
      intro i hi
      apply hlimit i
      rwa [List.length_append] at hi

/-! ## The phrases of a group -/

/-- The phrases that have been read in a group. -/
structure Parts where
  disjuncts : List Phrase
  chained : List Phrase
  conjuncts : List Phrase

namespace Parts

/-- The tokens before the present conjunction. -/
def before (p : Parts) : List Token :=
  followed (.connective .or) p.disjuncts ++ followed .xor p.chained

/-- The present conjunction of the group. -/
def conjunction (p : Parts) (g : OpenGroup) : Phrase :=
  (separated (.connective .and) p.conjuncts, g.conjunction)

/-- The present chain of the group. -/
def chain (p : Parts) (g : OpenGroup) : Phrase :=
  (followed .xor p.chained ++ (p.conjunction g).1, g.chain)

/-- The phrases are those of the group, and each may stand at its level. -/
structure Fits (limit level : Nat) (g : OpenGroup) (p : Parts) : Prop where
  disjuncts_eq : g.disjuncts = p.disjuncts.map Prod.snd
  chained_eq : g.chained = p.chained.map Prod.snd
  conjuncts_eq : g.conjuncts = p.conjuncts.map Prod.snd
  disjuncts_derive : ∀ q ∈ p.disjuncts, Derives limit .exclusive level q.1 q.2
  chained_lt : ∀ i, i < p.chained.length → level + i < limit
  chained_derive : Climbs limit level p.chained
  conjuncts_derive : ∀ q ∈ p.conjuncts,
    Derives limit .unary (level + p.chained.length) q.1 q.2
  negations_lt : ∀ i, i < g.negations → level + p.chained.length + i < limit

theorem Fits.depth_eq {g : OpenGroup} {p : Parts} (h : p.Fits limit level g) :
    g.depth = p.chained.length + g.negations := by
  rw [OpenGroup.depth, h.chained_eq, List.length_map]

theorem Fits.conjunction {g : OpenGroup} {p : Parts} (h : p.Fits limit level g)
    (hne : p.conjuncts ≠ []) :
    Derives limit .conjunction (level + p.chained.length) (p.conjunction g).1
      (p.conjunction g).2 := by
  rw [Parts.conjunction, OpenGroup.conjunction, h.conjuncts_eq]
  exact Derives.conjunction p.conjuncts hne h.conjuncts_derive

theorem Fits.chain {g : OpenGroup} {p : Parts} (h : p.Fits limit level g)
    (hne : p.conjuncts ≠ []) :
    Derives limit .exclusive level (p.chain g).1 (p.chain g).2 := by
  rw [Parts.chain, OpenGroup.chain, h.chained_eq]
  exact Derives.exclusive_append h.chained_lt h.chained_derive (h.conjunction hne)

end Parts

namespace OpenGroup

/-- The group awaits an operand after the tokens. -/
def Awaits (limit level : Nat) (g : OpenGroup) (tokens : List Token) : Prop :=
  ∃ p : Parts, p.Fits limit level g ∧
    tokens = p.before ++ followed (.connective .and) p.conjuncts ++
      List.replicate g.negations .not

/-- The tokens of the group end with an operand. -/
def Completes (limit level : Nat) (g : OpenGroup) (tokens : List Token) : Prop :=
  ∃ p : Parts, p.Fits limit level g ∧ p.conjuncts ≠ [] ∧ g.negations = 0 ∧
    tokens = p.before ++ separated (.connective .and) p.conjuncts

variable {g : OpenGroup} {tokens : List Token}

theorem awaits_empty : Awaits limit level .empty [] :=
  ⟨⟨[], [], []⟩, by constructor <;> simp [empty], rfl⟩

theorem Awaits.negate (h : Awaits limit level g tokens) (hlt : level + g.depth < limit) :
    Awaits limit level g.negate (tokens ++ [.not]) := by
  obtain ⟨p, hfits, rfl⟩ := h
  refine ⟨p, { hfits with negations_lt := ?_ }, ?_⟩
  · intro i hi
    change i < g.negations + 1 at hi
    rw [hfits.depth_eq] at hlt
    omega
  · rw [OpenGroup.negate, List.replicate_succ', List.append_assoc]

/-- An operand completes the group, under the negations that waited for it. -/
theorem Awaits.receive {operand : List Token} {f : Formula} (h : Awaits limit level g tokens)
    (hoperand : Derives limit .primary (level + g.depth) operand f) :
    Completes limit level (g.receive f) (tokens ++ operand) := by
  obtain ⟨p, hfits, rfl⟩ := h
  have hlast : Derives limit .unary (level + p.chained.length)
      (negatedPhrase g.negations (operand, f)).1 (negatedPhrase g.negations (operand, f)).2 := by
    apply Derives.negatedPhrase g.negations hfits.negations_lt
    rw [hfits.depth_eq, ← Nat.add_assoc] at hoperand
    exact hoperand.primary
  refine ⟨⟨p.disjuncts, p.chained, p.conjuncts ++ [negatedPhrase g.negations (operand, f)]⟩,
    ?_, ?_, rfl, ?_⟩
  · refine { hfits with
      conjuncts_eq := ?_, conjuncts_derive := ?_, negations_lt := ?_ }
    · change g.conjuncts ++ [.negated g.negations f] = _
      rw [hfits.conjuncts_eq, List.map_append]
      rfl
    · intro q hq
      rcases List.mem_append.mp hq with hq | hq
      · exact hfits.conjuncts_derive q hq
      · rw [List.mem_singleton.mp hq]
        exact hlast
    · exact fun i hi => absurd hi (Nat.not_lt_zero i)
  · simp
  · rw [separated_concat]
    simp [negatedPhrase, Parts.before]

theorem Completes.awaits (h : Completes limit level g tokens) :
    Awaits limit level g (tokens ++ [.connective .and]) := by
  obtain ⟨p, hfits, hne, hnegations, rfl⟩ := h
  refine ⟨p, hfits, ?_⟩
  rw [hnegations, followed_eq_separated_append hne]
  simp

theorem Completes.extendDisjunction (h : Completes limit level g tokens) :
    Awaits limit level g.extendDisjunction (tokens ++ [.connective .or]) := by
  obtain ⟨p, hfits, hne, hnegations, rfl⟩ := h
  refine ⟨⟨p.disjuncts ++ [p.chain g], [], []⟩, ?_, ?_⟩
  · refine ⟨?_, rfl, rfl, ?_, ?_, climbs_nil, ?_, ?_⟩
    · rw [OpenGroup.extendDisjunction, hfits.disjuncts_eq, List.map_append]
      rfl
    · intro q hq
      rcases List.mem_append.mp hq with hq | hq
      · exact hfits.disjuncts_derive q hq
      · rw [List.mem_singleton.mp hq]
        exact hfits.chain hne
    · exact fun i hi => absurd hi (Nat.not_lt_zero i)
    · exact fun q hq => absurd hq List.not_mem_nil
    · change ∀ i, i < g.negations → _
      rw [hnegations]
      exact fun i hi => absurd hi (Nat.not_lt_zero i)
  · simp [Parts.before, Parts.chain, Parts.conjunction, followed, OpenGroup.extendDisjunction,
      hnegations]

theorem Completes.extendChain (h : Completes limit level g tokens)
    (hlt : level + g.depth < limit) :
    Awaits limit level g.extendChain (tokens ++ [.xor]) := by
  obtain ⟨p, hfits, hne, hnegations, rfl⟩ := h
  rw [hfits.depth_eq, hnegations, Nat.add_zero] at hlt
  refine ⟨⟨p.disjuncts, p.chained ++ [p.conjunction g], []⟩, ?_, ?_⟩
  · refine ⟨hfits.disjuncts_eq, ?_, rfl, hfits.disjuncts_derive, ?_,
      hfits.chained_derive.append (hfits.conjunction hne), ?_, ?_⟩
    · rw [OpenGroup.extendChain, hfits.chained_eq, List.map_append]
      rfl
    · intro i hi
      rw [List.length_append, List.length_singleton] at hi
      omega
    · exact fun q hq => absurd hq List.not_mem_nil
    · change ∀ i, i < g.negations → _
      rw [hnegations]
      exact fun i hi => absurd hi (Nat.not_lt_zero i)
  · simp [Parts.before, Parts.conjunction, followed, OpenGroup.extendChain, hnegations]

theorem Completes.disjunction (h : Completes limit level g tokens) :
    Derives limit .disjunction level tokens g.formula := by
  obtain ⟨p, hfits, hne, -, rfl⟩ := h
  have hformula : g.formula = .join .or ((p.disjuncts ++ [p.chain g]).map Prod.snd) := by
    rw [formula, hfits.disjuncts_eq, List.map_append]
    rfl
  have htokens : p.before ++ separated (.connective .and) p.conjuncts =
      separated (.connective .or) (p.disjuncts ++ [p.chain g]) := by
    rw [separated_concat, Parts.before, List.append_assoc]
    rfl
  rw [hformula, htokens]
  refine Derives.disjunction _ (by simp) ?_
  intro q hq
  rcases List.mem_append.mp hq with hq | hq
  · exact hfits.disjuncts_derive q hq
  · rw [List.mem_singleton.mp hq]
    exact hfits.chain hne

/-- The tokens up to the innermost open parenthesis are those of the groups around it. -/
inductive Around (limit : Nat) : List OpenGroup → List Token → Prop
  | nil : Around limit [] []
  | cons {g : OpenGroup} {enclosing : List OpenGroup} {outer inner : List Token} :
      Around limit enclosing outer → Awaits limit (depthAround enclosing) g inner →
      depthAround enclosing + g.depth < limit →
      Around limit (g :: enclosing) (outer ++ inner ++ [.openParen])

end OpenGroup

namespace Reading

open OpenGroup

/-- The tokens are those that have been read, phrase by phrase. -/
def Accounts (limit : Nat) (tokens : List Token) : Reading → Prop
  | awaiting u => ∃ outer inner, tokens = outer ++ inner ∧ Around limit u.enclosing outer ∧
      Awaits limit (depthAround u.enclosing) u.group inner
  | complete u => ∃ outer inner, tokens = outer ++ inner ∧ Around limit u.enclosing outer ∧
      Completes limit (depthAround u.enclosing) u.group inner

theorem accounts_start : Accounts limit [] (.awaiting .start) :=
  ⟨[], [], rfl, Around.nil, awaits_empty⟩

theorem of_descend_eq_ok {u next : Unfinished} {r : Reading}
    (h : descend limit u next = .ok r) : u.depth < limit ∧ r = .awaiting next := by
  unfold descend at h
  split at h
  next hlt =>
    cases h
    exact ⟨hlt, rfl⟩
  next => cases h

theorem depth_comm (u : Unfinished) : u.depth = depthAround u.enclosing + u.group.depth :=
  Nat.add_comm _ _

theorem accounts_of_feed_awaiting {tokens : List Token} {token : Token} {u : Unfinished}
    {next : Reading} (h : Accounts limit tokens (.awaiting u))
    (hfeed : (Reading.awaiting u).feed limit token = .ok next) :
    Accounts limit (tokens ++ [token]) next := by
  obtain ⟨outer, inner, rfl, haround, hinner⟩ := h
  cases token with
  | var name =>
      cases hfeed
      exact ⟨outer, inner ++ [Token.var name], by simp, haround,
        hinner.receive (Derives.var _ name)⟩
  | const value =>
      cases hfeed
      exact ⟨outer, inner ++ [Token.const value], by simp, haround,
        hinner.receive (Derives.const _ value)⟩
  | openParen =>
      obtain ⟨hlt, rfl⟩ := of_descend_eq_ok hfeed
      rw [depth_comm] at hlt
      exact ⟨outer ++ inner ++ [Token.openParen], [], by simp, Around.cons haround hinner hlt,
        awaits_empty⟩
  | not =>
      obtain ⟨hlt, rfl⟩ := of_descend_eq_ok hfeed
      rw [depth_comm] at hlt
      exact ⟨outer, inner ++ [Token.not], by simp, haround, hinner.negate hlt⟩
  | closeParen | connective | xor | endOfInput => cases hfeed

theorem accounts_of_feed_complete {tokens : List Token} {token : Token} {u : Unfinished}
    {next : Reading} (h : Accounts limit tokens (.complete u))
    (hfeed : (Reading.complete u).feed limit token = .ok next) :
    Accounts limit (tokens ++ [token]) next := by
  obtain ⟨outer, inner, rfl, haround, hinner⟩ := h
  cases token with
  | connective c =>
      cases c with
      | and =>
          cases hfeed
          exact ⟨outer, inner ++ [Token.connective .and], by simp, haround, hinner.awaits⟩
      | or =>
          cases hfeed
          exact ⟨outer, inner ++ [Token.connective .or], by simp, haround, hinner.extendDisjunction⟩
  | xor =>
      obtain ⟨hlt, rfl⟩ := of_descend_eq_ok hfeed
      rw [depth_comm] at hlt
      exact ⟨outer, inner ++ [Token.xor], by simp, haround, hinner.extendChain hlt⟩
  | closeParen =>
      -- The tokens since the parenthesis was opened are an operand of the group around it.
      obtain ⟨group, enclosing⟩ := u
      cases haround with
      | nil => cases hfeed
      | @cons g enclosing outer' inner' haround hawaits hlt =>
          cases hfeed
          have hlevel : depthAround (g :: enclosing) = depthAround enclosing + g.depth + 1 := by
            rw [depthAround]
            omega
          have hdisjunction := hinner.disjunction
          rw [hlevel] at hdisjunction
          exact ⟨outer', inner' ++ (.openParen :: inner ++ [Token.closeParen]), by simp, haround,
            hawaits.receive (Derives.paren hlt hdisjunction)⟩
  | var | const | openParen | not | endOfInput =>
      obtain ⟨group, enclosing⟩ := u
      cases enclosing <;> cases hfeed

/-- Reading one token keeps the account. -/
theorem Accounts.feed {tokens : List Token} {token : Token} {r next : Reading}
    (h : Accounts limit tokens r) (hfeed : r.feed limit token = .ok next) :
    Accounts limit (tokens ++ [token]) next := by
  cases r with
  | awaiting u => exact accounts_of_feed_awaiting h hfeed
  | complete u => exact accounts_of_feed_complete h hfeed

theorem Accounts.feedAll {before tokens : List Token} {r last : Reading}
    (h : Accounts limit before r) (hfeed : r.feedAll limit tokens = .ok last) :
    Accounts limit (before ++ tokens) last := by
  induction tokens generalizing before r with
  | nil =>
      cases hfeed
      rwa [List.append_nil]
  | cons token tokens ih =>
      cases hnext : r.feed limit token with
      | ok next =>
          rw [feedAll_cons hnext] at hfeed
          rw [List.append_cons]
          exact ih (h.feed hnext) hfeed
      | error fault =>
          rw [Reading.feedAll, List.foldlM_cons, hnext] at hfeed
          cases hfeed

/-- Where a formula may end, the tokens are written for it. -/
theorem Accounts.derives {tokens : List Token} {r : Reading} {f : Formula}
    (h : Accounts limit tokens r) (hfinish : r.finish = .ok f) :
    Derives limit .disjunction 0 tokens f := by
  cases r with
  | awaiting u => cases hfinish
  | complete u =>
      obtain ⟨group, enclosing⟩ := u
      obtain ⟨outer, inner, rfl, haround, hinner⟩ := h
      cases haround with
      | nil =>
          cases hfinish
          exact hinner.disjunction
      | cons => cases hfinish

end Reading

/-- From the start, exactly the tokens that are written for a formula are read as one, and
the formula is the one that they are written for. -/
theorem Reading.read_start_eq_ok_iff {position : Nat} {tokens : List Token} {f : Formula} :
    Reading.read limit position (.awaiting .start) tokens = .ok f ↔
      Derives limit .disjunction 0 (tokens.takeWhile (· ≠ .endOfInput)) f := by
  rw [Reading.read_eq_ok_iff]
  constructor
  · rintro ⟨last, hfeed, hfinish⟩
    exact (Reading.accounts_start.feedAll hfeed).derives hfinish
  · exact Derives.exists_finish

/-- The tokens before the first end are read as a formula exactly when the grammar derives
them within the limit on levels, and the formula is that of the derivation. -/
theorem Formula.ofTokens_eq_ok_iff (tokens : List Token) (f : Formula) :
    Formula.ofTokens tokens = .ok f ↔
      Derives maxDepth .disjunction 0 (tokens.takeWhile (· ≠ .endOfInput)) f :=
  Reading.read_start_eq_ok_iff

end BooleanSteps

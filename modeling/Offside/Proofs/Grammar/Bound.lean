import Offside.Proofs.Grammar.Step

/-!
# Bounds are never met

Loops and nested productions carry a bound. `Agree n p q` says that two productions do the same in every state in which at most `n`
tokens remain, and that what they do is made of steps. Each production keeps the agreement of the operands inside it, and an operand
gains one token on the operands inside it, so an operand does not depend on its bound once the bound reaches the tokens that remain
(`Agree.primary_primaryUpTo`): it is defined by recursion on them (`Recurs`). Without bounds the productions satisfy the equations of the
grammar, such as `primary_eq`.
-/

namespace Offside

open Production

/-- Two productions do the same in a state, by steps, and leave at most `n` tokens if they succeed. -/
structure AgreeAt {α : Type} (n : Nat) (s : State) (p q : Production α) : Prop where
  same : p s = q s
  follows : Follows s (p s)
  bound : ∀ a t, p s = .ok a t → t.remaining ≤ n

/-- Two productions agree in every state in which at most `n` tokens remain. -/
def Agree {α : Type} (n : Nat) (p q : Production α) : Prop := ∀ s : State, s.remaining ≤ n → AgreeAt n s p q

namespace AgreeAt

variable {α β : Type} {n : Nat} {s : State}

/-- Agreement at the state in front, and everywhere behind it. -/
theorem bind {x y : Production α} {f g : α → Production β} (hx : AgreeAt n s x y) (hf : ∀ a, Agree n (f a) (g a)) :
    AgreeAt n s (x >>= f) (y >>= g) := by
  obtain ⟨hsame, hfollows, hbound⟩ := hx
  cases he : x s with
  | ok a t =>
    have hy : y s = .ok a t := by rw [← hsame, he]
    obtain ⟨hsame', hfollows', hbound'⟩ := hf a t (hbound a t he)
    rw [he] at hfollows
    refine ⟨?_, ?_, ?_⟩
    · rw [bind_of_ok he, bind_of_ok hy, hsame']
    · rw [bind_of_ok he]
      cases hr : f a t with
      | ok b u => rw [hr] at hfollows'; exact Steps.trans hfollows hfollows'
      | error d u => rw [hr] at hfollows'; exact Fails.after hfollows hfollows'
    · intro b u hb
      rw [bind_of_ok he] at hb
      exact hbound' b u hb
  | error d t =>
    have hy : y s = .error d t := by rw [← hsame, he]
    refine ⟨?_, ?_, ?_⟩
    · rw [bind_of_error he, bind_of_error hy]
    · rw [bind_of_error he]
      rw [he] at hfollows
      exact hfollows
    · intro b u hb
      rw [bind_of_error he] at hb
      cases hb

/-- A failure that is made of steps agrees with itself. -/
theorem of_error {p : Production α} {d : Diagnostic} {t : State} (h : p s = .error d t) (hf : Fails s d t) :
    AgreeAt n s p p := by
  refine ⟨rfl, ?_, ?_⟩
  · rw [h]
    exact hf
  · intro a u hu
    rw [h] at hu
    cases hu

/-- A success that is made of steps agrees with itself, if it leaves few enough tokens. -/
theorem of_ok {p : Production α} {a : α} {t : State} (h : p s = .ok a t) (hs : Steps s t) (hn : t.remaining ≤ n) :
    AgreeAt n s p p := by
  refine ⟨rfl, ?_, ?_⟩
  · rw [h]
    exact hs
  · intro b u hu
    rw [h] at hu
    cases hu
    exact hn

/-- The lookahead may be looked at first. -/
theorem current_bind {f g : Token → Production β} (h : AgreeAt n s (f s.current) (g s.current)) :
    AgreeAt n s (Production.current >>= f) (Production.current >>= g) :=
  ⟨h.same, h.follows, h.bound⟩

theorem unexpected (expected : String) :
    AgreeAt n s (Production.unexpected expected : Production α) (Production.unexpected expected) :=
  of_error rfl (Fails.unexpected s expected)

/-- Reading the next token leaves at most `n` tokens wherever it is known to. -/
theorem advance (h : ∀ t, Production.advance s = .ok () t → t.remaining ≤ n) :
    AgreeAt n s Production.advance Production.advance := by
  cases ha : Production.advance s with
  | ok a t => exact of_ok ha (Steps.read ha (Steps.refl t)) (h t ha)
  | error d t => exact of_error ha (Fails.malformed ha)

/-- In front of the end of the input reading leaves one token less. -/
theorem advance_succ (hs : s.remaining ≤ n + 1) (hc : s.current ≠ .endOfInput) :
    AgreeAt n s Production.advance Production.advance := by
  apply advance
  intro t ht
  have hlt := advance_remaining_lt ht hc
  omega

/-- A given character is read only where it stands, so it leaves one token less. -/
theorem expectPunct_succ (c : Char) (expected : String) (hs : s.remaining ≤ n + 1) :
    AgreeAt n s (expectPunct c expected) (expectPunct c expected) := by
  by_cases hp : s.current.isPunct c = true
  · have hc : s.current ≠ .endOfInput := by
      intro he
      simp [he, Token.isPunct] at hp
    have heq : expectPunct c expected s = Production.advance s := by simp [expectPunct, hp]
    have ha := advance_succ hs hc
    exact ⟨rfl, heq ▸ ha.follows, fun a t h => ha.bound a t (heq ▸ h)⟩
  · exact of_error (by simp [expectPunct, hp]) (Fails.unexpected s expected)

/-- A name is read only where it stands, so it leaves one token less. -/
theorem identifier_succ (expected : String) (hs : s.remaining ≤ n + 1) :
    AgreeAt n s (identifier expected) (identifier expected) := by
  cases hc : s.current with
  | identifier name =>
    have heq : identifier expected s = (Production.advance >>= fun _ => pure name) s := by simp [identifier, hc]
    have ha : AgreeAt n s (Production.advance >>= fun _ => pure name) (Production.advance >>= fun _ => pure name) :=
      (advance_succ hs (by simp [hc])).bind fun _ t ht => of_ok rfl (Steps.refl t) ht
    exact ⟨rfl, heq ▸ ha.follows, fun a t h => ha.bound a t (heq ▸ h)⟩
  | _ => exact of_error (by simp [identifier, hc]) (Fails.unexpected s expected)

end AgreeAt

namespace Agree

variable {α β : Type} {n : Nat}

/-- Agreement of productions one after another. -/
theorem bind {x y : Production α} {f g : α → Production β} (hx : Agree n x y) (hf : ∀ a, Agree n (f a) (g a)) :
    Agree n (x >>= f) (y >>= g) :=
  fun s hs => (hx s hs).bind hf

theorem pure (a : α) : Agree n (Pure.pure a : Production α) (Pure.pure a) :=
  fun s hs => .of_ok rfl (Steps.refl s) hs

/-- Agreement of values made from the values of productions. -/
theorem map {x y : Production α} (f : α → β) (hx : Agree n x y) : Agree n (f <$> x) (f <$> y) := by
  rw [map_eq_bind, map_eq_bind]
  exact hx.bind fun a => pure (f a)

theorem get : Agree n (MonadState.get : Production State) MonadState.get :=
  fun s hs => .of_ok rfl (Steps.refl s) hs

theorem current : Agree n Production.current Production.current :=
  fun s hs => .of_ok rfl (Steps.refl s) hs

theorem note (event : Event) : Agree n (Production.note event) (Production.note event) :=
  fun _ hs => .of_ok rfl (Steps.note event (Steps.refl _)) hs

theorem unexpected (expected : String) :
    Agree n (Production.unexpected expected : Production α) (Production.unexpected expected) :=
  fun _ _ => .unexpected expected

theorem invalidDeclaration (detail : String) :
    Agree n (Production.invalidDeclaration detail : Production α) (Production.invalidDeclaration detail) :=
  fun s _ => .of_error rfl (Fails.invalid s detail)

/-- The next token is the same for both, and no more tokens remain behind it. -/
theorem advance : Agree n Production.advance Production.advance := by
  intro s hs
  apply AgreeAt.advance
  intro t ht
  exact Nat.le_trans (advance_remaining_le ht) hs

theorem expectPunct (c : Char) (expected : String) :
    Agree n (Production.expectPunct c expected) (Production.expectPunct c expected) :=
  fun _ hs => .expectPunct_succ c expected (Nat.le_succ_of_le hs)

theorem identifier (expected : String) :
    Agree n (Production.identifier expected) (Production.identifier expected) :=
  fun _ hs => .identifier_succ expected (Nat.le_succ_of_le hs)

/-- A loop runs for as many rounds as there are tokens left, which are the same for both. -/
theorem bounded {p q : Nat → Production α} (h : ∀ k, Agree n (p k) (q k)) :
    Agree n (Production.bounded p) (Production.bounded q) := by
  intro s hs
  obtain ⟨hsame, hfollows, hbound⟩ := h s.remaining s hs
  exact ⟨hsame, hfollows, hbound⟩

/-- A block is opened and closed for both alike. -/
theorem insideBlock {p q : Production α} (h : Agree n p q) : Agree n (Grammar.insideBlock p) (Grammar.insideBlock q) := by
  intro s hs
  obtain ⟨hsame, hfollows, hbound⟩ := h s.enter hs
  cases hp : p s.enter with
  | ok a t =>
    rw [hp] at hsame hfollows
    refine ⟨?_, ?_, ?_⟩
    · simp only [insideBlock_apply, hp, ← hsame]
    · simp only [insideBlock_apply, hp]
      exact Steps.block hfollows (Steps.refl _)
    · intro b u hu
      simp only [insideBlock_apply, hp] at hu
      cases hu
      exact hbound a t hp
  | error d t =>
    rw [hp] at hsame hfollows
    refine ⟨?_, ?_, ?_⟩
    · simp only [insideBlock_apply, hp, ← hsame]
    · simp only [insideBlock_apply, hp]
      exact Fails.block hfollows
    · intro b u hu
      simp only [insideBlock_apply, hp] at hu
      cases hu

/-- Separators are passed over alike. -/
theorem skipUpTo (k : Nat) : Agree n (Production.skipUpTo k) (Production.skipUpTo k) := by
  induction k with
  | zero => exact pure ()
  | succ k ih =>
    refine current.bind fun t => ?_
    split
    · exact advance.bind fun _ => ih
    · exact pure ()

theorem skipStatementEnds : Agree n Production.skipStatementEnds Production.skipStatementEnds :=
  bounded skipUpTo

/-- Lists agree if their items do. The induction is on the bound of the loop. -/
theorem itemsUpTo {p q : Production α} (h : Agree n p q) (k : Nat) :
    Agree n (Production.itemsUpTo p k) (Production.itemsUpTo q k) := by
  induction k with
  | zero => exact unexpected _
  | succ k ih =>
    refine h.bind fun first => current.bind fun t => ?_
    split
    · exact advance.bind fun _ => ih.bind fun rest => pure _
    · refine current.bind fun t => ?_
      split
      · exact advance.bind fun _ => pure _
      · exact unexpected _

/-- Lists in parentheses agree if their items do. -/
theorem commaSeparated {p q : Production α} (h : Agree n p q) :
    Agree n (Production.commaSeparated p) (Production.commaSeparated q) := by
  refine current.bind fun t => ?_
  split
  · exact advance.bind fun _ => pure _
  · exact bounded fun k => itemsUpTo h (k + 1)

/-! ## The productions of the grammar -/

variable {p q : Production Expr}

/-- Operations agree if their operands do, whatever they begin with. -/
theorem operationsUpTo (h : Agree n p q) (k : Nat) : ∀ (least : Nat) (left : Expr),
    Agree n (Grammar.operationsUpTo p k least left) (Grammar.operationsUpTo q k least left) := by
  induction k with
  | zero => exact fun _ left => pure left
  | succ k ih =>
    intro least left
    refine current.bind fun t => ?_
    split
    · exact pure left
    · rename_i op _
      split
      · exact pure left
      · refine advance.bind fun _ => h.bind fun right => current.bind fun t => ?_
        split
        · exact (pure right).bind fun right => ih least _
        · split
          · exact (ih _ right).bind fun right => ih least _
          · exact (pure right).bind fun right => ih least _

theorem operationsWith (h : Agree n p q) (least : Nat) (left : Expr) :
    Agree n (Grammar.operationsWith p least left) (Grammar.operationsWith q least left) :=
  bounded fun k => operationsUpTo h k least left

/-- Expressions agree if the operands in them do. -/
theorem expressionWith (h : Agree n p q) : Agree n (Grammar.expressionWith p) (Grammar.expressionWith q) :=
  h.bind fun left => operationsWith h 0 left

/-- Statements agree if the operands in them do. -/
theorem statementsUpTo (h : Agree n p q) (k : Nat) : Agree n (Grammar.statementsUpTo p k) (Grammar.statementsUpTo q k) := by
  induction k with
  | zero => exact pure []
  | succ k ih =>
    refine skipStatementEnds.bind fun _ => current.bind fun t => ?_
    split
    · exact advance.bind fun _ => pure []
    · exact pure []
    · exact pure []
    · exact (expressionWith h).bind fun statement => ih.bind fun rest => pure _

/-- The member behind a point has no operand inside it. -/
theorem member : Agree n Grammar.member? Grammar.member? := by
  refine current.bind fun t => ?_
  split
  · exact advance.bind fun _ => (identifier _).map _
  · exact pure none

/-- A call agrees if its arguments do. -/
theorem namedWith (h : Agree n p q) (first : String) (member? : Option String) :
    Agree n (Grammar.namedWith p first member?) (Grammar.namedWith q first member?) := by
  refine get.bind fun _ => current.bind fun t => ?_
  split
  · exact (expectPunct _ _).bind fun _ => (commaSeparated (expressionWith h)).bind fun _ => (note _).bind fun _ => pure _
  · exact pure _

/-- What is declared depends on the chain that has been read, not on how. -/
theorem declared (name : String) (chain : Expr) : Agree n (Grammar.declared name chain) (Grammar.declared name chain) := by
  unfold Grammar.declared
  split
  · exact (note _).bind fun _ => pure _
  · exact invalidDeclaration _

/-- The other branch agrees if the operands in it do. -/
theorem otherwiseWith (h : Agree n p q) : Agree n (Grammar.otherwiseWith p) (Grammar.otherwiseWith q) := by
  refine current.bind fun t => ?_
  split
  · exact advance.bind fun _ => skipStatementEnds.bind fun _ => (expressionWith h).map _
  · exact pure none

end Agree

/-! ## An operand gains a token on the operands inside it -/

namespace AgreeAt

variable {n : Nat} {s : State} {p q : Production Expr}

/-- A reference reads its name first, so its arguments have fewer tokens. -/
theorem referenceWith (h : Agree n p q) (hs : s.remaining ≤ n + 1) :
    AgreeAt n s (Grammar.referenceWith p) (Grammar.referenceWith q) :=
  (identifier_succ _ hs).bind fun first => Agree.member.bind fun member? => h.namedWith first member?

/-- Behind the keyword there are fewer tokens for the value. -/
theorem returnWith (h : Agree n p q) (hs : s.remaining ≤ n + 1) (hc : s.current ≠ .endOfInput) :
    AgreeAt n s (Grammar.returnWith p) (Grammar.returnWith q) :=
  (advance_succ hs hc).bind fun _ => h.expressionWith.bind fun _ => Agree.pure _

/-- Behind the keyword there are fewer tokens for the chain. -/
theorem declarationWith (h : Agree n p q) (hs : s.remaining ≤ n + 1) (hc : s.current ≠ .endOfInput) :
    AgreeAt n s (Grammar.declarationWith p) (Grammar.declarationWith q) := by
  refine (advance_succ hs hc).bind fun _ => ?_
  have href : Agree n (Grammar.referenceWith p) (Grammar.referenceWith q) :=
    fun _ ht => referenceWith h (Nat.le_succ_of_le ht)
  refine href.bind fun e => ?_
  cases e with
  | var name => exact (h.operationsWith 0 _).bind fun chain => Agree.declared name chain
  | _ => exact Agree.invalidDeclaration _

/-- A condition is read behind its first word, whatever that is. -/
theorem conditionalWith (h : Agree n p q) (ha : AgreeAt n s Production.advance Production.advance) :
    AgreeAt n s (Grammar.conditionalWith p) (Grammar.conditionalWith q) :=
  ha.bind fun _ => (Agree.expectPunct _ _).bind fun _ => h.expressionWith.bind fun _ =>
    (Agree.expectPunct _ _).bind fun _ => Agree.skipStatementEnds.bind fun _ => h.expressionWith.bind fun _ =>
      Agree.skipStatementEnds.bind fun _ => h.otherwiseWith.bind fun _ => (Agree.note _).bind fun _ => Agree.pure _

/-- Behind the parenthesis there are fewer tokens for the expression. -/
theorem groupingWith (h : Agree n p q) (hs : s.remaining ≤ n + 1) (hc : s.current ≠ .endOfInput) :
    AgreeAt n s (Grammar.groupingWith p) (Grammar.groupingWith q) :=
  (advance_succ hs hc).bind fun _ => h.expressionWith.bind fun _ => (Agree.expectPunct _ _).bind fun _ => Agree.pure _

/-- Behind the brace there are fewer tokens for the statements. -/
theorem blockWith (h : Agree n p q) (hs : s.remaining ≤ n + 1) :
    AgreeAt n s (Grammar.blockWith p) (Grammar.blockWith q) :=
  (expectPunct_succ _ _ hs).bind fun _ => Agree.get.bind fun _ =>
    (Agree.bounded h.statementsUpTo).insideBlock.bind fun _ => Agree.pure _

/-- An operand reads a token before any operand inside it, so it agrees on one token more than they do. -/
theorem primaryWith (h : Agree n p q) (hs : s.remaining ≤ n + 1) :
    AgreeAt n s (Grammar.primaryWith p) (Grammar.primaryWith q) := by
  -- the lookahead decides, and no operand begins with the end of the input
  unfold Grammar.primaryWith
  apply current_bind
  split
  · rename_i hc
    exact (advance_succ hs (by simp [hc])).bind fun _ => Agree.pure _
  · exact referenceWith h hs
  · rename_i hc
    exact returnWith h hs (by simp [hc])
  · rename_i hc
    exact declarationWith h hs (by simp [hc])
  · rename_i hc
    exact conditionalWith h (advance_succ hs (by simp [hc]))
  · rename_i hc
    exact groupingWith h hs (by simp [hc])
  · exact blockWith h hs
  · exact unexpected _

end AgreeAt

/-- An operand leads where steps lead, whatever its bound. -/
theorem Agree.primaryUpTo_self (k n : Nat) : Agree n (Grammar.primaryUpTo k) (Grammar.primaryUpTo k) := by
  induction k with
  | zero => exact unexpected _
  | succ k ih => exact fun s hs => AgreeAt.primaryWith ih (Nat.le_succ_of_le hs)

/-! ## Recursion on the tokens that remain -/

namespace Production

variable {ι α : Type} {u : Nat → ι → Production α} {F : (ι → Production α) → ι → Production α}

/-- Productions that do the same as `p` where fewer than `n` tokens remain, and something else elsewhere. -/
def below (n : Nat) (p stray : ι → Production α) : ι → Production α := fun i s => if s.remaining < n then p i s else stray i s

/-- `p` is what the body `F` makes of it, by recursion on the tokens that remain: the body goes on with `p` only in states in which
fewer tokens remain, so that it makes no difference what would be done in others. -/
def Recurs (F : (ι → Production α) → ι → Production α) (p : ι → Production α) : Prop :=
  ∀ (stray : ι → Production α) (i : ι) (s : State), p i s = F (below s.remaining p stray) i s

/-- `u n` is the recursion with the body `F`, cut off at depth `n`. -/
structure CutOffAt (u : Nat → ι → Production α) (F : (ι → Production α) → ι → Production α) : Prop where
  succ : ∀ n i, u (n + 1) i = F (u n) i
  zero : ∀ (s : State) p i, s.remaining = 0 → u 0 i s = F p i s
  steps : ∀ n i k, Agree k (u n i) (u n i)
  body : ∀ {k : Nat} {s : State} {p q : ι → Production α}, s.remaining ≤ k + 1 → (∀ j, Agree k (p j) (q j)) → ∀ i, F p i s = F q i s

/-- Where `k` tokens remain all bounds from `k` on lead to the same. -/
theorem CutOffAt.congr (h : CutOffAt u F) (k : Nat) : ∀ {n m : Nat}, k ≤ n → k ≤ m → ∀ i, Agree k (u n i) (u m i) := by
  induction k with
  | zero =>
    intro n m _ _ i s hs
    have hfirst : ∀ n, u n i s = u 0 i s := by
      intro n
      cases n with
      | zero => rfl
      | succ n => rw [h.succ, h.zero s _ i (Nat.le_zero.mp hs)]
    obtain ⟨_, hfollows, hbound⟩ := h.steps n i 0 s hs
    exact ⟨by rw [hfirst n, hfirst m], hfollows, hbound⟩
  | succ k ih =>
    intro n m hn hm i s hs
    obtain ⟨n, rfl⟩ : ∃ j, n = j + 1 := ⟨n - 1, by omega⟩
    obtain ⟨m, rfl⟩ : ∃ j, m = j + 1 := ⟨m - 1, by omega⟩
    obtain ⟨_, hfollows, hbound⟩ := h.steps (n + 1) i (k + 1) s hs
    refine ⟨?_, hfollows, hbound⟩
    rw [h.succ, h.succ]
    exact h.body hs (ih (Nat.le_of_succ_le_succ hn) (Nat.le_of_succ_le_succ hm)) i

/-- The tokens that remain are a bound that is never met. -/
theorem CutOffAt.recurs (h : CutOffAt u F) : Recurs F fun i => bounded fun n => u n i := by
  intro stray i s
  show u s.remaining i s = _
  cases hr : s.remaining with
  | zero => exact h.zero s _ i hr
  | succ k =>
    rw [h.succ]
    refine h.body (Nat.le_of_eq hr) (fun j t ht => ?_) i
    obtain ⟨hsame, _, _⟩ := h.congr t.remaining ht (Nat.le_refl _) j t (Nat.le_refl _)
    obtain ⟨_, hfollows, hbound⟩ := h.steps k j k t ht
    refine ⟨?_, hfollows, hbound⟩
    rw [below, if_pos (Nat.lt_succ_of_le ht), hsame]
    rfl

/-- What is defined by recursion satisfies the equation of its body. -/
theorem Recurs.eq {p : ι → Production α} (h : Recurs F p) : p = F p := by
  funext i s
  have hself : below s.remaining p p = p := by
    funext j t
    exact ite_self _
  rw [h p i s, hself]

/-- Operands are the recursion whose body is `primaryWith`. -/
theorem cutOffAt_primary : CutOffAt (fun n (_ : Unit) => Grammar.primaryUpTo n) fun p i => Grammar.primaryWith (p i) where
  succ _ _ := rfl
  zero s p i hs := by
    have hend := State.current_of_remaining_eq_zero hs
    simp [Grammar.primaryUpTo, Grammar.primaryWith, hend]
  steps n _ k := Agree.primaryUpTo_self n k
  body hs h i := (AgreeAt.primaryWith (h i) hs).same

end Production

namespace Agree

/-- An operand agrees with every bounded one whose bound is large enough. -/
theorem primary_primaryUpTo {k n : Nat} (h : k ≤ n) : Agree k Grammar.primary (Grammar.primaryUpTo n) := by
  intro s hs
  obtain ⟨hsame, hfollows, hbound⟩ := cutOffAt_primary.congr s.remaining (Nat.le_refl _) (Nat.le_trans hs h) () s (Nat.le_refl _)
  exact ⟨hsame, hfollows, fun a t ht => Nat.le_trans (hbound a t ht) hs⟩

/-- An operand is made of steps. -/
theorem primary (n : Nat) : Agree n Grammar.primary Grammar.primary :=
  bounded fun k => primaryUpTo_self k n

end Agree

namespace Grammar

/-- An operand holds operands of the same kind. -/
theorem primary_eq : primary = primaryWith primary := congrFun cutOffAt_primary.recurs.eq ()

end Grammar

/-! ## Loops without their bounds -/

namespace Production

/-- Composed productions do the same if they go on in the same way wherever the first part succeeds. -/
theorem bind_congr_ok {α β : Type} {x : Production α} {f g : α → Production β} {s : State}
    (h : ∀ a t, x s = .ok a t → f a t = g a t) : (x >>= f) s = (x >>= g) s := by
  cases hx : x s with
  | ok a t => rw [bind_of_ok hx, bind_of_ok hx, h a t hx]
  | error d t => rw [bind_of_error hx, bind_of_error hx]

/-- Only what a production does in the state at hand counts. -/
theorem bind_congr_left {α β : Type} {x y : Production α} {f : α → Production β} {s : State} (h : x s = y s) :
    (x >>= f) s = (y >>= f) s := by
  simp only [bind, EStateM.bind, h]

/-- A production that uses up at least one token if it succeeds. -/
def Consumes {α : Type} (p : Production α) : Prop := ∀ s a t, p s = .ok a t → t.remaining < s.remaining

/-- A production that leaves one token less uses up a token, if it fails at the end of the input. -/
theorem consumes_of_agreeAt {α : Type} {p : Production α} (h : ∀ {n s}, s.remaining ≤ n + 1 → AgreeAt n s p p)
    (hend : ∀ {s a t}, s.current = .endOfInput → p s ≠ .ok a t) : Consumes p := by
  intro s a t hp
  cases hr : s.remaining with
  | zero => exact absurd hp (hend (State.current_of_remaining_eq_zero hr))
  | succ n => exact Nat.lt_succ_of_le ((h (Nat.le_of_eq hr)).bound a t hp)

theorem consumes_expectPunct (c : Char) (expected : String) : Consumes (expectPunct c expected) :=
  consumes_of_agreeAt (AgreeAt.expectPunct_succ c expected) fun hend => by simp [expectPunct, hend, Token.isPunct]

theorem consumes_identifier (expected : String) : Consumes (identifier expected) :=
  consumes_of_agreeAt (AgreeAt.identifier_succ expected) fun hend => by simp [identifier, hend]

/-- What fails consumes whatever is asked. -/
theorem consumes_unexpected {α : Type} (expected : String) : Consumes (unexpected (α := α) expected) := by
  intro s a t h
  cases h

/-- What goes on behind a production that uses up a token does so too. -/
theorem Consumes.bind {α β : Type} {p : Production α} {f : α → Production β} (hp : Consumes p) (hf : ∀ a n, Agree n (f a) (f a)) :
    Consumes (p >>= f) := by
  intro s b t h
  obtain ⟨a, s₁, h₁, h₂⟩ := bind_eq_ok.mp h
  exact Nat.lt_of_le_of_lt ((hf a _ s₁ (Nat.le_refl _)).bound b t h₂) (hp s a s₁ h₁)

/-- A character that may stand in front is read, or something else is. -/
theorem consumes_ifPunct {α : Type} {c : Char} {x y : Production α} (hx : ∀ n, Agree n x x) (hy : Consumes y) :
    Consumes (do if (← current).isPunct c then advance; x else y) := by
  intro s a t h
  rw [current_bind] at h
  split at h
  · rename_i hc
    obtain ⟨_, s₁, h₁, h₂⟩ := bind_eq_ok.mp h
    have hpunct : s.current = .punct c := eq_of_beq hc
    exact Nat.lt_of_le_of_lt ((hx _ s₁ (Nat.le_refl _)).bound a t h₂) (advance_remaining_lt h₁ (by simp [hpunct]))
  · exact hy s a t h

/-- An operand uses up at least one token, if what is inside it leads where steps lead. -/
theorem consumes_primaryWith {p : Production Expr} (h : ∀ n, Agree n p p) : Consumes (Grammar.primaryWith p) := by
  intro s e t he
  cases hr : s.remaining with
  | zero =>
    have hc := State.current_of_remaining_eq_zero hr
    simp [Grammar.primaryWith, hc] at he
  | succ n =>
    have hb := (AgreeAt.primaryWith (h n) (Nat.le_of_eq hr)).bound e t he
    omega

/-- An operand begins with a token of its own. -/
theorem consumes_primaryUpTo (n : Nat) : Consumes (Grammar.primaryUpTo n) := by
  cases n with
  | zero => intro s e t he; cases he
  | succ n => exact consumes_primaryWith (Agree.primaryUpTo_self n)

theorem consumes_primary : Consumes Grammar.primary := by
  rw [Grammar.primary_eq]
  exact consumes_primaryWith Agree.primary

section

-- a loop `u` with the body `F`, which goes on only where fewer tokens remain
variable {ι α : Type} {u : Nat → ι → Production α} {F : (ι → Production α) → ι → Production α}

/-- A loop does not depend on its bound, as long as the bound reaches the tokens that remain. -/
theorem loop_congr (hsucc : ∀ n i, u (n + 1) i = F (u n) i) (hzero : ∀ (s : State) p i, s.remaining = 0 → u 0 i s = F p i s)
    (hF : ∀ (s : State) p q i, (∀ (t : State) j, t.remaining < s.remaining → p j t = q j t) → F p i s = F q i s) :
    ∀ (n m : Nat) (s : State) (i : ι), s.remaining ≤ n → s.remaining ≤ m → u n i s = u m i s := by
  intro n
  induction n with
  | zero =>
    intro m s i hn _
    cases m with
    | zero => rfl
    | succ m => rw [hsucc, hzero s (u m) i (Nat.le_zero.mp hn)]
  | succ n ih =>
    intro m s i hn hm
    cases m with
    | zero => rw [hsucc, hzero s (u n) i (Nat.le_zero.mp hm)]
    | succ m =>
      rw [hsucc, hsucc]
      apply hF
      intro t j ht
      exact ih m t j (by omega) (by omega)

/-- A loop that is bounded by the tokens that remain satisfies the equation of its body. -/
theorem bounded_loop (hsucc : ∀ n i, u (n + 1) i = F (u n) i) (hzero : ∀ (s : State) p i, s.remaining = 0 → u 0 i s = F p i s)
    (hF : ∀ (s : State) p q i, (∀ (t : State) j, t.remaining < s.remaining → p j t = q j t) → F p i s = F q i s) (i : ι) :
    (bounded fun n => u n i) = F (fun j => bounded fun n => u n j) i := by
  funext s
  have hcongr := loop_congr hsucc hzero hF
  calc u s.remaining i s = u (s.remaining + 1) i s := hcongr _ _ s i (Nat.le_refl _) (Nat.le_succ _)
    _ = F (u s.remaining) i s := by rw [hsucc]
    _ = F (fun j => bounded fun n => u n j) i s := hF s _ _ i fun t j ht => hcongr _ _ t j (Nat.le_of_lt ht) (Nat.le_refl _)

end

/-- Separators are passed over one by one. -/
theorem skipStatementEnds_eq :
    skipStatementEnds = (do
      if (← current) = .statementEnd then
        advance
        skipStatementEnds) := by
  refine bounded_loop (u := fun n (_ : Unit) => skipUpTo n) (F := fun p i => do
    if (← current) = .statementEnd then
      advance
      p i) (fun n i => rfl) ?_ ?_ ()
  · intro s p i hs
    simp [skipUpTo, State.current_of_remaining_eq_zero hs]
  · intro s p q i h
    simp only [current_bind]
    split
    · rename_i hc
      apply bind_congr_ok
      intro _ t ht
      exact h t i (advance_remaining_lt ht (by simp [hc]))
    · rfl

/-- Where no separator stands none is passed over. -/
theorem skipStatementEnds_stop {s : State} (h : s.current ≠ .statementEnd) : skipStatementEnds s = .ok () s := by
  rw [skipStatementEnds_eq, current_bind, if_neg h]
  rfl

/-- Of a run of separators the first can be passed over beforehand. -/
theorem skipStatementEnds_advance {s t : State} (h : s.current = .statementEnd) (ha : advance s = .ok () t) :
    skipStatementEnds s = skipStatementEnds t :=
  (congrFun skipStatementEnds_eq s).trans (by rw [current_bind, if_pos h, bind_of_ok ha])

/-- A malformed literal behind a separator stops the run. -/
theorem skipStatementEnds_error {s t : State} {d : Diagnostic} (h : s.current = .statementEnd) (ha : advance s = .error d t) :
    skipStatementEnds s = .error d t := by
  rw [skipStatementEnds_eq, current_bind, if_pos h, bind_of_error ha]

end Production

end Offside

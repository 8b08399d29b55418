import Offside.Proofs.Grammar.Frame
import Offside.Proofs.Isolation

/-!
# Reading comes to an end

Every loop and every nested production goes on only where fewer tokens remain than before, so it is defined by recursion on the tokens
that remain, and the bound it carries is never met (`Descends`). A production that succeeds has used up its lookahead, and so has every
round of a script, whether it stores a construct or gives one up (`Spends`). So a script comes to the end of the input, and it stores and
reports no more than there is to read.
-/

namespace Offside

open Production

/-! ## Loops by recursion on the tokens that remain -/

namespace Production

/-- Passes over a separator and goes on with `more`. -/
def skipBody (more : Production Unit) : Production Unit := do
  if (← current) = .statementEnd then
    advance
    more

/-- Reads an item and a comma and goes on with `more`, or reads an item and a closing parenthesis. -/
def itemsBody {α : Type} (item : Production α) (more : Production (List α)) : Production (List α) := do
  let first ← item
  if (← current).isPunct ',' then
    advance
    return first :: (← more)
  else if (← current).isPunct ')' then
    advance
    return [first]
  else
    unexpected "',' or ')'"

end Production

namespace Grammar

/-- Reads an operator and the operand behind it and goes on with `more`, which is given the loosest operator it may read and its left
operand. It first goes on behind the right operand if a tighter operator stands there. -/
def operationsBody (operand : Production Expr) (more : Nat × Expr → Production Expr) : Nat × Expr → Production Expr
  | (least, left) => do
    match Operator.ofToken? (← current) with
    | none => return left
    | some op =>
      if op.precedence < least then
        return left
      else
        advance
        let right ← operand
        let right ←
          match Operator.ofToken? (← current) with
          | none => pure right
          | some next => if op.precedence < next.precedence then more (op.precedence + 1, right) else pure right
        more (least, .operation left op.symbol right)

/-- Reads a statement of a block and goes on with `more`, or ends the block. -/
def statementsBody (operand : Production Expr) (more : Production (List Expr)) : Production (List Expr) := do
  skipStatementEnds
  match ← current with
  | .punct '}' =>
    advance
    return []
  | .endOfInput | .keyword .function => return []
  | _ =>
    let statement ← expressionWith operand
    return statement :: (← more)

end Grammar

namespace AgreeAt

variable {α : Type} {n m : Nat} {s : State} {p q : Production α}

/-- Agreement on success may leave more tokens. -/
theorem mono (h : AgreeAt n s p q) (hnm : n ≤ m) : AgreeAt m s p q :=
  ⟨h.same, h.follows, fun a t ht => Nat.le_trans (h.bound a t ht) hnm⟩

/-- What uses up a token leaves one token less. -/
theorem of_consumes (h : ∀ n, Agree n p p) (hc : Consumes p) (hs : s.remaining ≤ n + 1) : AgreeAt n s p p := by
  refine ⟨rfl, (h _ s (Nat.le_refl _)).follows, fun a t ht => ?_⟩
  have hlt := hc s a t ht
  omega

end AgreeAt

namespace Production

/-- Passing over separators is the recursion whose body is `skipBody`. -/
theorem cutOffAt_skip : CutOffAt (fun n (_ : Unit) => skipUpTo n) fun p i => skipBody (p i) where
  succ _ _ := rfl
  zero s p i hs := by
    have hend := State.current_of_remaining_eq_zero hs
    simp [skipUpTo, skipBody, hend]
  steps n _ _ := Agree.skipUpTo n
  body {k s p q} hs h i := by
    unfold skipBody
    rw [current_bind, current_bind]
    split
    · rename_i hc
      exact ((AgreeAt.advance_succ hs (by simp [hc])).bind fun _ => h i).same
    · rfl

/-- The items between commas; each of them uses up a token. -/
theorem cutOffAt_items {α : Type} {item : Production α} (hitem : ∀ k, Agree k item item) (hc : Consumes item) :
    CutOffAt (fun n (_ : Unit) => itemsUpTo item (n + 1)) fun p i => itemsBody item (p i) where
  succ _ _ := rfl
  zero s p i hs := by
    -- where no token remains there is no item
    show itemsBody item (itemsUpTo item 0) s = itemsBody item (p i) s
    apply bind_congr_ok
    intro a t ha
    have hlt := hc s a t ha
    omega
  steps n _ k := Agree.itemsUpTo (hitem k) (n + 1)
  body {k s p q} hs h i := by
    refine ((AgreeAt.of_consumes hitem hc hs).bind fun first => Agree.current.bind fun t => ?_).same
    split
    · exact Agree.advance.bind fun _ => (h i).bind fun rest => Agree.pure _
    · refine Agree.current.bind fun t => ?_
      split
      · exact Agree.advance.bind fun _ => Agree.pure _
      · exact Agree.unexpected _

end Production

namespace Grammar

variable {operand : Production Expr}

/-- Operations are the recursion whose body is `operationsBody`. -/
theorem cutOffAt_operations (hoperand : ∀ k, Agree k operand operand) :
    CutOffAt (fun n i => operationsUpTo operand n i.1 i.2) (operationsBody operand) where
  succ _ _ := rfl
  zero s p i hs := by
    have hend := State.current_of_remaining_eq_zero hs
    simp [operationsUpTo, operationsBody, hend, Operator.ofToken?]
  steps n i k := Agree.operationsUpTo (hoperand k) n i.1 i.2
  body {k s p q} hs h i := by
    unfold operationsBody
    dsimp only
    rw [current_bind, current_bind]
    cases hop : Operator.ofToken? s.current with
    | none => rfl
    | some op =>
      dsimp only
      split
      · rfl
      · refine ((AgreeAt.advance_succ hs (Operator.ofToken?_ne_endOfInput hop)).bind fun _ => (hoperand k).bind fun right =>
          Agree.current.bind fun next => ?_).same
        -- the operator behind the right operand decides who goes on first
        have hleft : ∀ right : Expr, Agree k (p (i.1, .operation i.2 op.symbol right)) (q (i.1, .operation i.2 op.symbol right)) :=
          fun right => h _
        split
        · exact (Agree.pure right).bind hleft
        · split
          · exact (h _).bind hleft
          · exact (Agree.pure right).bind hleft

/-- Statements are the recursion whose body is `statementsBody`; each of them uses up a token. -/
theorem cutOffAt_statements (hoperand : ∀ k, Agree k operand operand) (hc : Consumes operand) :
    CutOffAt (fun n (_ : Unit) => statementsUpTo operand n) fun p i => statementsBody operand (p i) where
  succ _ _ := rfl
  zero s p i hs := by
    have hend := State.current_of_remaining_eq_zero hs
    have hskip : skipStatementEnds s = .ok () s := skipStatementEnds_stop (by simp [hend])
    rw [statementsUpTo, statementsBody, bind_of_ok hskip, current_bind, hend]
  steps n _ k := Agree.statementsUpTo (hoperand k) n
  body {k s p q} hs h i := by
    have hexpression : ∀ n, Agree n (expressionWith operand) (expressionWith operand) := fun n => (hoperand n).expressionWith
    refine ((Agree.skipStatementEnds s hs).bind fun _ => fun t ht => AgreeAt.current_bind ?_).same
    split
    · exact (Agree.advance.bind fun _ => Agree.pure []) t ht
    · exact Agree.pure [] t ht
    · exact Agree.pure [] t ht
    · have hstatement := AgreeAt.of_consumes hexpression (consumes_expressionWith hc) ht
      exact (hstatement.bind fun statement => (h i).bind fun rest => Agree.pure _).mono (Nat.le_succ k)

/-- Nothing in the grammar goes on where as many tokens remain as before: separators, items between commas, operations, statements and
operands inside operands are defined by recursion on the tokens that remain. -/
structure Descends : Prop where
  separators : Recurs (fun p i => skipBody (p i)) fun _ : Unit => skipStatementEnds
  arguments : Recurs (fun p i => itemsBody expression (p i)) fun _ : Unit => bounded fun n => itemsUpTo expression (n + 1)
  params (expected : String) :
    Recurs (fun p i => itemsBody (identifier expected) (p i)) fun _ : Unit => bounded fun n => itemsUpTo (identifier expected) (n + 1)
  operations : Recurs (operationsBody primary) fun i => operations i.1 i.2
  statements : Recurs (fun p i => statementsBody primary (p i)) fun _ : Unit => bounded (statementsUpTo primary)
  operands : Recurs (fun p i => primaryWith (p i)) fun _ : Unit => primary

/-- Every loop and every nested production is defined by recursion on the tokens that remain. -/
theorem descends : Descends where
  separators := cutOffAt_skip.recurs
  arguments := (cutOffAt_items (fun k => (Agree.primary k).expressionWith) (consumes_expressionWith consumes_primary)).recurs
  params expected := (cutOffAt_items (fun _ => Agree.identifier expected) (consumes_identifier expected)).recurs
  operations := (cutOffAt_operations Agree.primary).recurs
  statements := (cutOffAt_statements Agree.primary consumes_primary).recurs
  operands := cutOffAt_primary.recurs

end Grammar

/-! ## What is used up -/

namespace State

/-- What is still to be read, the lookahead first. -/
def ahead (s : State) : List Lexed :=
  (if s.current = .endOfInput then [] else [.token s.current]) ++ s.stream.items.map (·.lexed)

/-- The tokens that remain are those still to be read. -/
theorem length_ahead (s : State) : s.ahead.length = s.remaining := by
  unfold ahead remaining
  split <;> simp [s.stream.size_eq]

theorem ahead_of_token {s : State} (h : s.current ≠ .endOfInput) : s.ahead = .token s.current :: s.stream.items.map (·.lexed) := by
  rw [ahead, if_neg h]
  rfl

/-- `Spends s t`: the lookahead of `s` is a token, and what is still to be read in `t` comes behind it. -/
structure Spends (s t : State) : Prop where
  token : s.current ≠ .endOfInput
  behind : t.ahead <:+ s.stream.items.map (·.lexed)

/-- Behind a token that is read stands what came behind the lookahead. -/
theorem ahead_of_advance {s t : State} (h : advance s = .ok () t) (hs : Proper s) : t.ahead = s.stream.items.map (·.lexed) := by
  rcases advance_ok_cases h with ⟨hi, rfl⟩ | ⟨i, is, token, hi, hl, rfl⟩
  · simp [ahead, hi]
  · have htoken : token ≠ .endOfInput := by
      rintro rfl
      exact hs.tokens i (by simp [hi]) hl
    simp [ahead, htoken, take, hi, hl]

end State

/-- Steps leave an end of what was to be read. -/
theorem Steps.ahead_suffix {s t : State} (h : Steps s t) (hs : Proper s) : t.ahead <:+ s.ahead := by
  induction h with
  | refl => exact List.suffix_refl _
  | read ha _ ih =>
    refine (ih (hs.advance ha)).trans ?_
    rw [State.ahead_of_advance ha hs]
    exact List.suffix_append _ _
  | note _ _ ih => exact ih (hs.congr rfl rfl)
  | block hin _ ihin ihout =>
    have ht := (hin.reads (hs.congr rfl rfl)).1
    exact (ihout (ht.congr rfl rfl)).trans (ihin (hs.congr rfl rfl))

/-- Steps that leave fewer tokens use up the lookahead. -/
theorem Steps.spends {s t : State} (h : Steps s t) (hs : Proper s) (hlt : t.remaining < s.remaining) : State.Spends s t := by
  have hsuffix := h.ahead_suffix hs
  have hend : s.current ≠ .endOfInput := by
    intro hend
    have hzero : s.remaining = 0 := by
      rw [← State.length_ahead, State.ahead, if_pos hend, hs.finished hend]
      rfl
    omega
  refine ⟨hend, ?_⟩
  rw [State.ahead_of_token hend, List.suffix_cons_iff] at hsuffix
  refine hsuffix.resolve_left fun heq => ?_
  rw [← State.ahead_of_token hend] at heq
  rw [← State.length_ahead, ← State.length_ahead, heq] at hlt
  exact Nat.lt_irrefl _ hlt

/-- A failure leaves items from the end of the stream. -/
theorem Fails.items_suffix {s t : State} {d : Diagnostic} (h : Fails s d t) : t.stream.items <:+ s.stream.items := by
  induction h with
  | malformed ha =>
    obtain ⟨i, is, literal, hi, _, rfl, _⟩ := advance_error_cases ha
    exact List.tail_suffix _
  | unexpected | invalid => exact List.suffix_refl _
  | after hsteps _ ih =>
    obtain ⟨read, heq, _⟩ := hsteps.items
    exact ih.trans ⟨read, heq.symm⟩
  | block _ ih => exact ih

/-! ### Calls -/

namespace Grammar

theorem consumes_reference : Consumes reference :=
  (consumes_identifier _).bind fun first n => Agree.member.bind fun member? => (Agree.primary n).namedWith first member?

theorem consumes_block : Consumes block :=
  (consumes_expectPunct _ _).bind fun _ n => Agree.get.bind fun _ =>
    (Agree.bounded (Agree.primary n).statementsUpTo).insideBlock.bind fun _ => Agree.pure _

namespace Call

/-- Whether a call is for a construct, which begins with the lookahead; the others may succeed at the end of the input. -/
def isConstruct : Call → Bool
  | advance | operations _ _ => false
  | _ => true

variable {s t : State}

/-- What is read behind the lookahead has used it up, or nothing but the end of the input is there. -/
theorem remaining_lt_of_advance {α : Type} {p : Production α} {f : Unit → Production α} {a : α} (hp : p = Production.advance >>= f)
    (hagree : ∀ n s, AgreeAt n s Production.advance Production.advance → AgreeAt n s p p)
    (hend : ∀ s : State, s.current = .endOfInput → ∃ d u, f () s = .error d u) (hs : Proper s) (h : p s = .ok a t) :
    t.remaining < s.remaining := by
  have hc : s.current ≠ .endOfInput := by
    intro hc
    obtain ⟨d, u, hf⟩ := hend { s with current := .endOfInput, position := s.stream.finish } rfl
    rw [hp, bind_of_ok (advance_end (hs.finished hc)), hf] at h
    cases h
  have hpos := s.remaining_pos hc
  have hbound := (hagree (s.remaining - 1) s (.advance_succ (by omega) hc)).bound a t h
  omega

/-- A construct that is read uses up at least one token. -/
theorem remaining_lt {c : Call} (hc : c.isConstruct = true) (hs : Proper s) {a : c.Yield} (h : c.production s = .ok a t) :
    t.remaining < s.remaining := by
  have hexpression : Consumes Grammar.expression := consumes_expressionWith consumes_primary
  cases c with
  | advance | operations => cases hc
  | primary => exact consumes_primary s a t h
  | expression => exact hexpression s a t h
  | reference => exact consumes_reference s a t h
  | block => exact consumes_block s a t h
  | topLevel =>
    obtain ⟨body, u, hbody, hrest⟩ := bind_eq_ok.mp h
    cases hrest
    exact hexpression s body t hbody
  | conditional =>
    refine remaining_lt_of_advance rfl (fun n _ ha => AgreeAt.conditionalWith (Agree.primary n) ha) (fun s hend => ?_) hs h
    have hopen : expectPunct '(' "'(' after 'if'" s = .error (s.unexpected "'(' after 'if'") s := by
      simp [expectPunct, hend, Token.isPunct]
    exact ⟨_, _, bind_of_error hopen⟩
  | function =>
    refine remaining_lt_of_advance rfl (fun n _ ha => AgreeAt.function_of_advance ha) (fun s hend => ?_) hs h
    have hname : identifier "a function name" s = .error (s.unexpected "a function name") s := by
      simp [identifier, hend]
    exact ⟨_, _, bind_of_error (bind_of_error hname)⟩

/-- A construct that succeeds has used up its lookahead. -/
theorem spends {c : Call} (hc : c.isConstruct = true) (hs : Proper s) {a : c.Yield} (h : c.production s = .ok a t) :
    State.Spends s t :=
  (steps h).spends hs (remaining_lt hc hs h)

end Call

end Grammar

/-! ### Rounds -/

namespace State

variable {s t u : State} {gs fs : List Function} {ds : List Diagnostic}

/-- The states that rounds lead to. -/
inductive Reaches : State → State → Prop where
  | refl (s : State) : Reaches s s
  | round {s t u : State} {gs fs : List Function} {ds : List Diagnostic} : Reaches s t → Round t gs fs ds u → Reaches s u

/-- What is passed over comes out of what stands behind the lookahead, and each diagnostic takes an item. -/
theorem Passes.spends (h : Passes s ds t) (hs : Proper s) :
    Proper t ∧ t.ahead <:+ s.stream.items.map (·.lexed) ∧ ds.length + t.ahead.length ≤ s.stream.items.length := by
  induction h with
  | token ha =>
    have hahead := ahead_of_advance ha hs
    exact ⟨hs.advance ha, hahead ▸ List.suffix_refl _, by simp [hahead]⟩
  | @malformed s _ _ d ds ha _ ih =>
    obtain ⟨i, is, literal, hi, _, rfl, _⟩ := advance_error_cases ha
    obtain ⟨hp, hsuffix, hle⟩ := ih ((take_proper hs hi).congr rfl rfl)
    have htail : ((s.take i).report d).stream.items = is := congrArg List.tail hi
    rw [htail] at hsuffix hle
    refine ⟨hp, ?_, ?_⟩
    · rw [hi, List.map_cons]
      exact hsuffix.trans (List.suffix_cons _ _)
    · rw [hi, List.length_cons, List.length_cons]
      omega

/-- A round uses up its lookahead, and each construct it stores and each diagnostic takes an item. -/
theorem Round.spends (h : Round s gs fs ds t) (hs : Proper s) :
    Proper t ∧ Spends s t ∧ gs.length + fs.length + ds.length + t.ahead.length ≤ s.ahead.length := by
  have hstored : ∀ {c : Grammar.Call} {a : c.Yield} {u : State}, c.isConstruct = true → c.production s = .ok a u →
      Proper u ∧ Spends s u ∧ 1 + u.ahead.length ≤ s.ahead.length := by
    intro c a u hc ha
    have hlt := Grammar.Call.remaining_lt hc hs ha
    rw [length_ahead, length_ahead]
    exact ⟨((Grammar.Call.steps ha).reads hs).1, Grammar.Call.spends hc hs ha, by omega⟩
  cases h with
  | separator hsep hpasses =>
    have hend : s.current ≠ .endOfInput := by simp [hsep]
    obtain ⟨hp, hsuffix, hle⟩ := hpasses.spends hs
    refine ⟨hp, ⟨hend, hsuffix⟩, ?_⟩
    rw [ahead_of_token hend, List.length_cons, List.length_map]
    exact Nat.le_succ_of_le (by simpa using hle)
  | expression _ _ _ hg =>
    obtain ⟨hp, ⟨htoken, hbehind⟩, hle⟩ := hstored (c := .topLevel) rfl hg
    exact ⟨hp.congr rfl rfl, ⟨htoken, hbehind⟩, hle⟩
  | function _ hf =>
    obtain ⟨hp, ⟨htoken, hbehind⟩, hle⟩ := hstored (c := .function) rfl hf
    exact ⟨hp.congr rfl rfl, ⟨htoken, hbehind⟩, hle⟩
  | @failed u _ d ds hend _ hc hpasses =>
    have hfails := construct_fails hc hend
    have hitems := hfails.items_suffix
    obtain ⟨hp, hsuffix, hle⟩ := hpasses.spends ((hfails.leaves.2.2 hs).congr rfl rfl)
    have hshorter : u.stream.items.length ≤ s.stream.items.length := hitems.length_le
    refine ⟨hp, ⟨hend, hsuffix.trans (hitems.map _)⟩, ?_⟩
    have hle' : ds.length + t.ahead.length ≤ u.stream.items.length := hle
    simp only [ahead_of_token hend, List.length_cons, List.length_map, List.length_nil]
    omega

/-- Rounds keep the state in order. -/
theorem Reaches.proper (h : Reaches s t) (hs : Proper s) : Proper t := by
  induction h with
  | refl => exact hs
  | round _ hround ih => exact (hround.spends ih).1

/-- What a run stores and reports is no more than there is to read. -/
theorem Run.length_le (h : Run s gs fs ds t) (hs : Proper s) : gs.length + fs.length + ds.length ≤ s.ahead.length := by
  induction h with
  | ended => exact Nat.zero_le _
  | round hround _ ih =>
    obtain ⟨hp, _, hle⟩ := hround.spends hs
    have hrest := ih hp
    simp only [List.length_append]
    omega

/-- The separator in front of a source is neither stored nor reported. -/
theorem Run.length_le_size {w : Workspace} {source : String} (h : Run (.start source w) gs fs ds t) :
    gs.length + fs.length + ds.length ≤ (TokenStream.ofSource source).size := by
  have hs : Proper (State.start source w) := .start source w
  generalize hstart : State.start source w = s at h hs
  have hsep : s.current = .statementEnd := hstart ▸ rfl
  cases h with
  | ended hend => rw [hsep] at hend; cases hend
  | round hround hrun =>
    cases hround with
    | separator _ hpasses =>
      obtain ⟨hp, _, hle⟩ := hpasses.spends hs
      have hrest := hrun.length_le hp
      have hsize : (TokenStream.ofSource source).size = s.stream.items.length := by
        rw [← hstart, TokenStream.size_eq]
        rfl
      simp only [List.length_append, List.length_nil]
      omega
    | expression _ hne | failed _ hne => exact absurd hsep hne
    | function hword => rw [hsep] at hword; cases hword

end State

/-- Whether a diagnostic is about the end of the input. -/
def Diagnostic.isUnexpectedEnd (d : Diagnostic) : Bool :=
  match d.cause with
  | .unexpectedEnd _ => true
  | _ => false

/-- The end of the input is reported at most once. -/
theorem State.script_ends_once {s : State} (hs : Proper s) : s.script.2.countP (·.isUnexpectedEnd) ≤ 1 := by
  have hother : ∀ d : Diagnostic, d.atSeparator = d → d.isUnexpectedEnd = false := by
    intro d hd
    unfold Diagnostic.isUnexpectedEnd
    split
    · rename_i expected hcause
      unfold Diagnostic.atSeparator at hd
      rw [hcause] at hd
      have hchanged := congrArg Diagnostic.cause hd
      rw [hcause] at hchanged
      cases hchanged
    · rfl
  have hfront := State.script_atSeparator hs
  generalize s.script.2 = ds at hfront
  rcases List.eq_nil_or_concat ds with rfl | ⟨front, last, rfl⟩
  · simp
  · rw [List.concat_eq_append] at hfront ⊢
    rw [List.dropLast_concat] at hfront
    have hnone : front.countP (·.isUnexpectedEnd) = 0 := by
      rw [List.countP_eq_zero]
      intro d hd
      simp [hother d (hfront d hd)]
    rw [List.countP_append, hnone, Nat.zero_add]
    exact List.countP_le_length

/-- Reading comes to an end. The grammar is defined by recursion on the tokens that remain. Behind any row of calls, a construct that
is read has begun at a token and has used it up, and so does every round of reading a source, whether it succeeds or fails. The rounds
come to the end of the input; they report it at most once, and the constructs and the diagnostics together are no more than the items
of the source. -/
theorem Workspace.read_progress (w : Workspace) (source : String) :
    Grammar.Descends ∧
    (∀ (calls : List Grammar.Call) (c : Grammar.Call), c.isConstruct = true → ∀ a t,
      c.production ((State.start source w).behind calls) = .ok a t → State.Spends ((State.start source w).behind calls) t) ∧
    (∀ s gs fs ds t, State.Reaches (.start source w) s → State.Round s gs fs ds t → State.Spends s t) ∧
    ∃ gs fs t, State.Run (.start source w) gs fs (w.read source).diagnostics t ∧ (w.read source).workspace = t.workspace ∧
      t.workspace = w.extend gs fs ∧ (w.read source).diagnostics.countP (·.isUnexpectedEnd) ≤ 1 ∧
      gs.length + fs.length + (w.read source).diagnostics.length ≤ (TokenStream.ofSource source).size := by
  have hstart : Proper (State.start source w) := .start source w
  obtain ⟨hworkspace, hdiagnostics⟩ := w.read_eq_script source
  obtain ⟨gs, fs, hrun⟩ := (State.start source w).script_run hstart
  rw [← hdiagnostics] at hrun
  refine ⟨Grammar.descends, fun calls c hc a t ha => ?_, fun s gs fs ds t hreaches hround => ?_,
    gs, fs, _, hrun, hworkspace, hrun.workspace_eq, ?_, hrun.length_le_size⟩
  · exact Grammar.Call.spends hc ((State.behind_frame calls _).2 hstart) ha
  · exact (hround.spends (hreaches.proper hstart)).2.1
  · rw [hdiagnostics]
    exact State.script_ends_once hstart

/-- Two diagnostics in the text and one for its end, beside one construct, out of nine items. -/
example :
    let reading := (Workspace.new .empty {}).read "a\n) 1.2.3 f() = ("
    reading.diagnostics.map (·.isUnexpectedEnd) = [false, false, true] ∧ reading.workspace.globals.length = 1 ∧
      (TokenStream.ofSource "a\n) 1.2.3 f() = (").size = 9 := by
  decide +kernel

end Offside

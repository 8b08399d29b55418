import Offside.Grammar.Expression

/-!
# What a production does to the state

Every production is made of four things: it reads the next token, it notes an event, it goes into a block and out of it again, or
it gives up. `Steps s t` says that `t` is reached from `s` by reading, noting and whole blocks; `Fails s d t` says that such steps
end in a failure `d` that leaves the state `t`. What holds of every state that reading reaches is proved by induction on these two.
-/

namespace Offside

namespace TokenStream

/-- The stream without its first item. -/
def tail (s : TokenStream) : TokenStream :=
  { items := s.items.tail, finish := s.finish, size := s.size - 1, size_eq := by simp [s.size_eq] }

@[simp] theorem tail_items (s : TokenStream) : s.tail.items = s.items.tail := rfl

@[simp] theorem tail_finish (s : TokenStream) : s.tail.finish = s.finish := rfl

@[simp] theorem tail_size (s : TokenStream) : s.tail.size = s.size - 1 := rfl

/-- At the end the stream yields the end, and goes on to do so. -/
theorem next_nil {s : TokenStream} (h : s.items = []) : s.next = ({ lexed := .token .endOfInput, position := s.finish }, s) := by
  obtain ⟨items, finish, size, hsize⟩ := s
  cases h
  rfl

/-- Otherwise it yields its first item and goes on behind it. -/
theorem next_cons {s : TokenStream} {i : Item} {is : List Item} (h : s.items = i :: is) : s.next = (i, s.tail) := by
  obtain ⟨items, finish, size, hsize⟩ := s
  cases h
  rfl

end TokenStream

namespace State

/-- The state behind the first item of the stream, with the lookahead as it was. -/
def take (s : State) (i : Item) : State := { s with stream := s.stream.tail, position := i.position }

/-- The state inside one more block. -/
def enter (s : State) : State := { s with workspace := { s.workspace with depth := s.workspace.depth + 1 } }

/-- The state with the innermost block closed. -/
def leave (s : State) : State := { s with workspace := { s.workspace with depth := s.workspace.depth - 1 } }

/-- What is noted does not count as a token to come. -/
@[simp] theorem remaining_note (s : State) (event : Event) : (s.note event).remaining = s.remaining := rfl

/-- Entering a block reads no token. -/
@[simp] theorem remaining_enter (s : State) : s.enter.remaining = s.remaining := rfl

/-- Leaving a block reads no token. -/
@[simp] theorem remaining_leave (s : State) : s.leave.remaining = s.remaining := rfl

/-- Nothing remains only where the lookahead is the end of the input. -/
theorem current_of_remaining_eq_zero {s : State} (h : s.remaining = 0) : s.current = .endOfInput := by
  by_cases hc : s.current = .endOfInput
  · exact hc
  · simp [remaining, hc] at h

/-- In front of the end of the input at least the lookahead remains. -/
theorem remaining_pos {s : State} (h : s.current ≠ .endOfInput) : 0 < s.remaining := by
  rcases Nat.eq_zero_or_pos s.remaining with h0 | h0
  · exact absurd (current_of_remaining_eq_zero h0) h
  · exact h0

end State

/-- `Steps s t`: reading tokens, noting events and running through whole blocks lead from `s` to `t`. -/
inductive Steps : State → State → Prop where
  | refl (s : State) : Steps s s
  | read {s t u : State} : Production.advance s = .ok () t → Steps t u → Steps s u
  | note {s u : State} (event : Event) : Steps (s.note event) u → Steps s u
  | block {s t u : State} : Steps s.enter t → Steps t.leave u → Steps s u

/-- `Fails s d t`: after some steps from `s` reading is given up with the diagnostic `d` in the state `t`. -/
inductive Fails : State → Diagnostic → State → Prop where
  | malformed {s t : State} {d : Diagnostic} : Production.advance s = .error d t → Fails s d t
  | unexpected (s : State) (expected : String) : Fails s (s.unexpected expected) s
  | invalid (s : State) (detail : String) : Fails s (s.invalidDeclaration detail) s
  | after {s t u : State} {d : Diagnostic} : Steps s t → Fails t d u → Fails s d u
  | block {s t : State} {d : Diagnostic} : Fails s.enter d t → Fails s d t.leave

/-- What a production may lead to. -/
def Follows {α : Type} (s : State) : EStateM.Result Diagnostic State α → Prop
  | .ok _ t => Steps s t
  | .error d t => Fails s d t

/-- Steps after steps are steps. -/
theorem Steps.trans {s t u : State} (h : Steps s t) (h' : Steps t u) : Steps s u := by
  induction h with
  | refl => exact h'
  | read ha _ ih => exact .read ha (ih h')
  | note event _ ih => exact .note event (ih h')
  | block hin _ _ ih => exact .block hin (ih h')

namespace Production

/-! ## Running a composed production -/

/-- After a success the second production goes on with the value. -/
theorem bind_of_ok {α β : Type} {x : Production α} {f : α → Production β} {s t : State} {a : α} (h : x s = .ok a t) :
    (x >>= f) s = f a t := by
  simp only [bind, EStateM.bind, h]

/-- After a failure nothing is done. -/
theorem bind_of_error {α β : Type} {x : Production α} {f : α → Production β} {s t : State} {d : Diagnostic}
    (h : x s = .error d t) : (x >>= f) s = .error d t := by
  simp only [bind, EStateM.bind, h]

/-- A composed production succeeds exactly if both parts do. -/
theorem bind_eq_ok {α β : Type} {x : Production α} {f : α → Production β} {s u : State} {b : β} :
    (x >>= f) s = .ok b u ↔ ∃ a t, x s = .ok a t ∧ f a t = .ok b u := by
  cases hx : x s with
  | ok a t =>
    rw [bind_of_ok hx]
    constructor
    · intro h
      exact ⟨a, t, rfl, h⟩
    · rintro ⟨_, _, ⟨⟩, h⟩
      exact h
  | error d t => rw [bind_of_error hx]; simp

/-- A mapped production is one that hands on its value. -/
theorem map_eq_bind {α β : Type} (f : α → β) (x : Production α) : f <$> x = x >>= fun a => pure (f a) := by
  funext s
  cases hx : x s with
  | ok a t => rw [bind_of_ok hx]; simp [Functor.map, EStateM.map, hx, pure, EStateM.pure]
  | error d t => rw [bind_of_error hx]; simp [Functor.map, EStateM.map, hx]

@[simp] theorem pure_apply {α : Type} (a : α) (s : State) : (pure a : Production α) s = .ok a s := rfl

@[simp] theorem get_apply (s : State) : (get : Production State) s = .ok s s := rfl

@[simp] theorem current_apply (s : State) : current s = .ok s.current s := rfl

@[simp] theorem note_apply (event : Event) (s : State) : note event s = .ok () (s.note event) := rfl

/-- A token that was not expected is reported, and nothing is read. -/
@[simp] theorem unexpected_apply {α : Type} (expected : String) (s : State) :
    (unexpected expected : Production α) s = .error (s.unexpected expected) s := rfl

/-- An invalid declaration is reported, and nothing is read. -/
@[simp] theorem invalidDeclaration_apply {α : Type} (detail : String) (s : State) :
    (invalidDeclaration detail : Production α) s = .error (s.invalidDeclaration detail) s := rfl

/-- A loop is bounded by the tokens that remain where it begins. -/
theorem bounded_apply {α : Type} (p : Nat → Production α) (s : State) : bounded p s = p s.remaining s := rfl

/-- What comes after a look at the lookahead is given it, in the same state. -/
@[simp] theorem current_bind {β : Type} (f : Token → Production β) (s : State) : (current >>= f) s = f s.current s := rfl

/-- What comes after a look at the state is given it. -/
@[simp] theorem get_bind {β : Type} (f : State → Production β) (s : State) : (get >>= f) s = f s s := rfl

/-- A block is closed whether its inside succeeds or fails. -/
theorem insideBlock_apply {α : Type} (p : Production α) (s : State) :
    Grammar.insideBlock p s =
      match p s.enter with
      | .ok a t => .ok a t.leave
      | .error d t => .error d t.leave := rfl

/-! ## Reading a token -/

/-- At the end of the stream the end of the input is read. -/
theorem advance_end {s : State} (h : s.stream.items = []) :
    advance s = .ok () { s with current := .endOfInput, position := s.stream.finish } := by
  simp only [advance, TokenStream.next_nil h]

/-- A token is read into the lookahead. -/
theorem advance_token {s : State} {i : Item} {is : List Item} {t : Token} (h : s.stream.items = i :: is)
    (ht : i.lexed = .token t) : advance s = .ok () { s.take i with current := t } := by
  simp only [advance, TokenStream.next_cons h, ht]
  rfl

/-- A malformed literal is a failure that passes over it. -/
theorem advance_malformed {s : State} {i : Item} {is : List Item} {literal : String} (h : s.stream.items = i :: is)
    (hl : i.lexed = .malformed literal) :
    advance s = .error { cause := .malformedNumber literal, place := i.place } (s.take i) := by
  simp only [advance, TokenStream.next_cons h, hl]
  rfl

/-- What reading succeeds with: the end of the input, or the token that stood in front. -/
theorem advance_ok_cases {s t : State} (h : advance s = .ok () t) :
    (s.stream.items = [] ∧ t = { s with current := .endOfInput, position := s.stream.finish }) ∨
      ∃ i is token, s.stream.items = i :: is ∧ i.lexed = .token token ∧ t = { s.take i with current := token } := by
  cases hi : s.stream.items with
  | nil =>
    rw [advance_end hi] at h
    cases h
    exact Or.inl ⟨rfl, rfl⟩
  | cons i is =>
    cases hl : i.lexed with
    | token token =>
      rw [advance_token hi hl] at h
      cases h
      exact Or.inr ⟨i, is, token, rfl, hl, rfl⟩
    | malformed literal =>
      rw [advance_malformed hi hl] at h
      cases h

/-- Reading fails on a malformed literal only, and passes over it. -/
theorem advance_error_cases {s t : State} {d : Diagnostic} (h : advance s = .error d t) :
    ∃ i is literal, s.stream.items = i :: is ∧ i.lexed = .malformed literal ∧ t = s.take i ∧
      d = { cause := .malformedNumber literal, place := i.place } := by
  cases hi : s.stream.items with
  | nil =>
    rw [advance_end hi] at h
    cases h
  | cons i is =>
    cases hl : i.lexed with
    | token token =>
      rw [advance_token hi hl] at h
      cases h
    | malformed literal =>
      rw [advance_malformed hi hl] at h
      cases h
      exact ⟨i, is, literal, rfl, hl, rfl, rfl⟩

/-- Reading leaves no more tokens than there were. -/
theorem advance_remaining_le {s t : State} (h : advance s = .ok () t) : t.remaining ≤ s.remaining := by
  rcases advance_ok_cases h with ⟨_, rfl⟩ | ⟨i, is, token, hi, _, rfl⟩
  · simp [State.remaining]
  · have hsize := s.stream.size_eq
    rw [hi, List.length_cons] at hsize
    simp only [State.remaining, State.take, TokenStream.tail_size]
    split <;> omega

/-- In front of the end of the input reading uses the lookahead up. -/
theorem advance_remaining_lt {s t : State} (h : advance s = .ok () t) (hc : s.current ≠ .endOfInput) :
    t.remaining < s.remaining := by
  rcases advance_ok_cases h with ⟨_, rfl⟩ | ⟨i, is, token, hi, _, rfl⟩
  · simp [State.remaining, hc]
  · have hsize := s.stream.size_eq
    rw [hi, List.length_cons] at hsize
    simp only [State.remaining, State.take, TokenStream.tail_size, hc, if_false]
    split <;> omega

end Production

/-- Steps leave the workspace as it was. -/
theorem Steps.workspace_eq {s t : State} (h : Steps s t) : t.workspace = s.workspace := by
  induction h with
  | refl => rfl
  | read ha _ ih =>
    rw [ih]
    rcases Production.advance_ok_cases ha with ⟨_, rfl⟩ | ⟨_, _, _, _, _, rfl⟩ <;> rfl
  | note _ _ ih => exact ih
  | block _ _ ihin ihout =>
    rw [ihout, State.leave]
    dsimp only
    rw [ihin]
    rfl

end Offside

import Offside.Proofs.Grammar.Bound

/-!
# The tokens a state sees

`Sees s ts` says that `ts` are the tokens to come in the state `s`, the lookahead first, and that no malformed literal is among them.
In such a state the small productions are functions on the list of tokens.
-/

namespace Offside

open Production

/-- The tokens to come in a state are `ts`, and nothing else is to come. -/
structure Sees (s : State) (ts : List Token) : Prop where
  current : s.current = ts.headD .endOfInput
  items : s.stream.items.map (·.lexed) = ts.tail.map .token
  proper : .endOfInput ∉ ts

namespace Sees

variable {s t : State} {ts : List Token} {token : Token}

theorem current_eq (h : Sees s (token :: ts)) : s.current = token := h.current

/-- Where tokens are to come, the lookahead is not the end of the input. -/
theorem current_ne_end (h : Sees s (token :: ts)) : s.current ≠ .endOfInput := by
  intro he
  apply h.proper
  rw [← he, h.current_eq]
  exact List.mem_cons_self

theorem current_nil (h : Sees s []) : s.current = .endOfInput := h.current

/-- What a state sees depends on the stream and the lookahead only. -/
theorem congr (h : Sees s ts) (hstream : t.stream = s.stream) (hcurrent : t.current = s.current) : Sees t ts :=
  ⟨hcurrent.trans h.current, by rw [hstream]; exact h.items, h.proper⟩

/-- What is noted leaves the tokens to come as they are. -/
theorem note (h : Sees s ts) (event : Event) : Sees (s.note event) ts := h.congr rfl rfl

theorem enter (h : Sees s ts) : Sees s.enter ts := h.congr rfl rfl

theorem leave (h : Sees s ts) : Sees s.leave ts := h.congr rfl rfl

/-- A state sees one list of tokens. -/
theorem unique {us : List Token} (h : Sees s ts) (h' : Sees s us) : ts = us := by
  have htail : ts.tail = us.tail :=
    List.map_inj_right (fun _ _ heq => Lexed.token.inj heq) |>.mp (h.items.symm.trans h'.items)
  cases ts with
  | nil =>
    cases us with
    | nil => rfl
    | cons u us => exact absurd h.current_nil h'.current_ne_end
  | cons t ts =>
    cases us with
    | nil => exact absurd h'.current_nil h.current_ne_end
    | cons u us =>
      obtain rfl : t = u := h.current_eq.symm.trans h'.current_eq
      exact congrArg (t :: ·) htail

/-- As many tokens remain as are seen. -/
theorem remaining (h : Sees s ts) : s.remaining = ts.length := by
  have hsize : s.stream.size = ts.tail.length := by
    have hlen := congrArg List.length h.items
    simpa [s.stream.size_eq] using hlen
  cases ts with
  | nil => simp [State.remaining, hsize, h.current_nil]
  | cons t ts => simp [State.remaining, hsize, h.current_ne_end]

/-- Reading a token passes on to the tokens behind it. -/
theorem advance (h : Sees s (token :: ts)) :
    ∃ t, Production.advance s = .ok () t ∧ Sees t ts := by
  have hitems := h.items
  have hproper : .endOfInput ∉ ts := fun hm => h.proper (List.mem_cons_of_mem _ hm)
  cases ts with
  | nil =>
    have hnil : s.stream.items = [] := by simpa using hitems
    exact ⟨_, advance_end hnil, ⟨rfl, by simp [hnil], hproper⟩⟩
  | cons u us =>
    simp only [List.tail_cons, List.map_cons] at hitems
    obtain ⟨i, is, hi, hl, his⟩ := List.map_eq_cons_iff.mp hitems
    refine ⟨_, advance_token hi hl, ⟨rfl, ?_, hproper⟩⟩
    simp [State.take, hi, his]

/-- However a token has been read, the ones behind it are seen. -/
theorem advance_ok (h : Sees s (token :: ts)) (ha : Production.advance s = .ok () t) : Sees t ts := by
  obtain ⟨t', ht', hs⟩ := h.advance
  rw [ht'] at ha
  cases ha
  exact hs

/-- A given character is read where it is seen. -/
theorem expectPunct {c : Char} (h : Sees s (.punct c :: ts)) (expected : String) :
    ∃ t, Production.expectPunct c expected s = .ok () t ∧ Sees t ts := by
  have heq : Production.expectPunct c expected s = Production.advance s := by
    simp [Production.expectPunct, h.current_eq, Token.isPunct]
  rw [heq]
  exact h.advance

/-- A given character is read only where it is seen. -/
theorem expectPunct_ok {c : Char} {expected : String} (h : Sees s ts) (hp : Production.expectPunct c expected s = .ok () t) :
    ∃ us, ts = .punct c :: us ∧ Sees t us := by
  have hc : s.current = .punct c := by
    apply Decidable.byContradiction
    intro hne
    simp [Production.expectPunct, Token.isPunct, hne] at hp
  cases ts with
  | nil => rw [h.current_nil] at hc; cases hc
  | cons token us =>
    obtain rfl : token = .punct c := h.current_eq.symm.trans hc
    obtain ⟨t', ht', hs⟩ := h.expectPunct expected
    rw [ht'] at hp
    cases hp
    exact ⟨us, rfl, hs⟩

/-- A name is read where it is seen. -/
theorem identifier {name : String} (h : Sees s (.identifier name :: ts)) (expected : String) :
    ∃ t, Production.identifier expected s = .ok name t ∧ Sees t ts := by
  obtain ⟨t, ht, hs⟩ := h.advance
  refine ⟨t, ?_, hs⟩
  simp only [Production.identifier, current_bind, h.current_eq]
  rw [bind_of_ok ht]
  rfl

/-- A name is read only where it is seen. -/
theorem identifier_ok {name expected : String} (h : Sees s ts) (hp : Production.identifier expected s = .ok name t) :
    ∃ us, ts = .identifier name :: us ∧ Sees t us := by
  cases hc : s.current with
  | identifier name' =>
    cases ts with
    | nil => rw [h.current_nil] at hc; cases hc
    | cons token us =>
      obtain rfl : token = .identifier name' := h.current_eq.symm.trans hc
      obtain ⟨t', ht', hs⟩ := h.identifier expected
      rw [ht'] at hp
      cases hp
      exact ⟨us, rfl, hs⟩
  | _ => simp [Production.identifier, hc] at hp

/-- All separators that are seen are passed over. -/
theorem skipStatementEnds (h : Sees s ts) :
    ∃ t, Production.skipStatementEnds s = .ok () t ∧ Sees t (ts.dropWhile (· = .statementEnd)) := by
  induction ts generalizing s with
  | nil => exact ⟨s, skipStatementEnds_stop (by simp [h.current_nil]), h⟩
  | cons token ts ih =>
    by_cases hc : token = .statementEnd
    · obtain ⟨t, ht, hs⟩ := h.advance
      obtain ⟨u, hu, hs'⟩ := ih hs
      exact ⟨u, (skipStatementEnds_advance (h.current_eq.trans hc) ht).trans hu, by simpa [hc] using hs'⟩
    · exact ⟨s, skipStatementEnds_stop (h.current_eq ▸ hc), by simpa [hc] using h⟩

end Sees

end Offside

import Offside.Proofs.Token.Stream

/-!
# What can be called

A callee is a name, or two names with a point between them. It is kept as one text, and its tokens are found by splitting the text at
the point.
-/

namespace Offside

/-- What can be called: a name, or two names joined by a point. -/
def isCallee (callee : String) : Bool :=
  match callee.toList.dropWhile (· != '.') with
  | [] => isName callee
  | _ :: member => isName (String.ofList (callee.toList.takeWhile (· != '.'))) && isName (String.ofList member)

/-- A name has no point in it. -/
theorem point_not_mem_of_isName {name : String} (h : isName name = true) : ∀ c ∈ name.toList, (c != '.') = true := by
  intro c hc
  rw [bne_iff_ne]
  rintro rfl
  obtain ⟨d, ds, heq, hd, hds, _⟩ := isName_cases h
  have hpoint : Lexeme.continuesName '.' = false := by decide
  rw [heq] at hc
  rcases List.mem_cons.mp hc with rfl | hc
  · rw [Lexeme.continuesName, hd] at hpoint
    cases hpoint
  · rw [hds '.' hc] at hpoint
    cases hpoint

/-- A name is not split at a point. -/
theorem dropWhile_name {name : String} (h : isName name = true) : name.toList.dropWhile (· != '.') = [] := by
  rw [← List.append_nil name.toList, List.dropWhile_append_of_pos (point_not_mem_of_isName h)]
  rfl

/-- Two names joined by a point are split there. -/
theorem split_member {first : String} (h : isName first = true) (member : String) :
    (first ++ "." ++ member).toList.takeWhile (· != '.') = first.toList ∧
      (first ++ "." ++ member).toList.dropWhile (· != '.') = '.' :: member.toList := by
  have htext : (first ++ "." ++ member).toList = first.toList ++ '.' :: member.toList := by simp
  rw [htext, List.takeWhile_append_of_pos (point_not_mem_of_isName h), List.dropWhile_append_of_pos (point_not_mem_of_isName h)]
  simp

/-- A callee is a name, or a name with a member behind a point. -/
theorem isCallee_iff {callee : String} :
    isCallee callee = true ↔
      isName callee = true ∨ ∃ first member, isName first = true ∧ isName member = true ∧ callee = first ++ "." ++ member := by
  constructor
  · intro h
    unfold isCallee at h
    split at h
    · exact .inl h
    · rename_i d member hdrop
      rw [Bool.and_eq_true] at h
      refine .inr ⟨_, _, h.1, h.2, String.toList_inj.mp ?_⟩
      have hpoint : d = '.' := by
        have hd := List.head?_dropWhile_not (· != '.') callee.toList
        simpa [hdrop] using hd
      have hsplit : callee.toList.takeWhile (· != '.') ++ '.' :: member = callee.toList := by
        rw [hpoint] at hdrop
        rw [← hdrop, List.takeWhile_append_dropWhile]
      simp [hsplit]
  · rintro (h | ⟨first, member, hfirst, hmember, rfl⟩)
    · rw [isCallee, dropWhile_name h]
      exact h
    · obtain ⟨htake, hdrop⟩ := split_member hfirst member
      simp only [isCallee, hdrop, htake, String.ofList_toList, hfirst, hmember, Bool.and_self]

/-- The tokens of what is called. -/
def calleeTokens (callee : String) : List Token :=
  match callee.toList.dropWhile (· != '.') with
  | [] => [.identifier callee]
  | _ :: member =>
    [.identifier (String.ofList (callee.toList.takeWhile (· != '.'))), .punct '.', .identifier (String.ofList member)]

/-- A name alone is one token. -/
theorem calleeTokens_name {name : String} (h : isName name = true) : calleeTokens name = [.identifier name] := by
  rw [calleeTokens, dropWhile_name h]

/-- A name with a member is three. -/
theorem calleeTokens_member {first : String} (h : isName first = true) (member : String) :
    calleeTokens (first ++ "." ++ member) = [.identifier first, .punct '.', .identifier member] := by
  obtain ⟨htake, hdrop⟩ := split_member h member
  simp only [calleeTokens, hdrop, htake, String.ofList_toList]

/-- A call begins with a name, and a parenthesis or a point is behind it. -/
theorem calleeTokens_append {callee : String} (h : isCallee callee = true) (ts : List Token) :
    ∃ name u us, calleeTokens callee ++ .punct '(' :: ts = .identifier name :: u :: us ∧ (u = .punct '(' ∨ u = .punct '.') := by
  rcases isCallee_iff.mp h with hname | ⟨first, member, hfirst, _, rfl⟩
  · rw [calleeTokens_name hname]
    exact ⟨_, _, _, rfl, .inl rfl⟩
  · rw [calleeTokens_member hfirst]
    exact ⟨_, _, _, rfl, .inr rfl⟩

/-- What is called is known from the tokens up to the parenthesis. -/
theorem calleeTokens_append_inj {callee callee' : String} (h : isCallee callee = true) (h' : isCallee callee' = true)
    {ts ts' : List Token} (heq : calleeTokens callee ++ .punct '(' :: ts = calleeTokens callee' ++ .punct '(' :: ts') :
    callee = callee' ∧ ts = ts' := by
  rcases isCallee_iff.mp h with hname | ⟨first, member, hfirst, _, rfl⟩ <;>
    rcases isCallee_iff.mp h' with hname' | ⟨first', member', hfirst', _, rfl⟩
  · simpa [calleeTokens_name, hname, hname'] using heq
  · simp [calleeTokens_name, calleeTokens_member, hname, hfirst'] at heq
  · simp [calleeTokens_name, calleeTokens_member, hname', hfirst] at heq
  · rw [calleeTokens_member hfirst, calleeTokens_member hfirst'] at heq
    cases heq
    exact ⟨rfl, rfl⟩

end Offside

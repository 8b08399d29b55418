import Offside.Grammar.Script
import Offside.Proofs.Grammar.Precedence
import Offside.Proofs.Renaming

/-!
# Two runs side by side

A production is run from two states, and the two runs correspond: both succeed or both fail, the values agree up to a renaming, and
so do the diagnostics and the states that are left. A `Simulation` is a relation between states for which this holds of reading one
token and of passing over separators; then it holds of every production.

The two runs need not have the same tokens to come. The second may be at its end where the first stands in front of a separator or of a
function, which stop it as the end of the input does (`Level`). The last `kept` tokens of the first may differ from what comes in the
second: then nothing is said of a first run that fails or reads one of them, and behind a separator the first may stand in front of a
token that is never read, where the second stands in front of any token that does not go on with what is in front of the separator
(`Aside`). So the bounds of loops and of nested productions differ too, and `UpTo n m` is about states in which at most `n` and `m` tokens
remain.
-/

namespace Offside

open Production

/-- The results of two runs correspond: values by `φ`, diagnostics by `Err` and states by `Rel`. -/
inductive Corresponds {α : Type} (Rel : State → State → Prop) (Err : Diagnostic → Diagnostic → Prop) (φ : α → α) :
    EStateM.Result Diagnostic State α → EStateM.Result Diagnostic State α → Prop where
  | ok {s t : State} (a : α) : Rel s t → Corresponds Rel Err φ (.ok a s) (.ok (φ a) t)
  | error {s t : State} {d e : Diagnostic} : Err d e → Rel s t → Corresponds Rel Err φ (.error d s) (.error e t)

/-- Results that correspond do so under a weaker relation of the states. -/
theorem Corresponds.mono {α : Type} {Rel Rel' : State → State → Prop} {Err : Diagnostic → Diagnostic → Prop} {φ : α → α}
    {first second : EStateM.Result Diagnostic State α} (h : Corresponds Rel Err φ first second) (hrel : ∀ {s t}, Rel s t → Rel' s t) :
    Corresponds Rel' Err φ first second := by
  cases h with
  | ok a h => exact .ok a (hrel h)
  | error herr h => exact .error herr (hrel h)

/-- A run that was not to read the last `kept` tokens has failed or has read one of them. -/
def Beyond {α : Type} (kept : Nat) : EStateM.Result Diagnostic State α → Prop
  | .ok _ s => s.remaining < kept
  | .error _ _ => 0 < kept

/-- A run that may read all tokens does not go beyond them. -/
theorem not_beyond_zero {α : Type} (r : EStateM.Result Diagnostic State α) : ¬Beyond 0 r := by
  cases r <;> exact Nat.not_lt_zero _

/-- Whether a token begins a construct that may go on behind a separator. -/
def Token.spansSeparators : Token → Bool
  | .keyword .if_ | .keyword .function | .punct '{' => true
  | _ => false

/-- A token that no production reads. -/
def Token.inert : Token := .punct '@'

/-- A token that does not go on with an expression behind separators: it is no operator and begins no other branch. -/
structure Token.Halts (token : Token) : Prop where
  separator : token ≠ .statementEnd
  otherwise : token ≠ .keyword .else_
  operator : Operator.ofToken? token = none

/-- Whether a token stops what is in front of it as the end of the input does: no expression begins or goes on with it. -/
def Token.bars : Token → Bool
  | .statementEnd | .keyword .function => true
  | _ => false

@[simp] theorem Token.bars_punct (c : Char) : (punct c).bars = false := rfl

@[simp] theorem Token.bars_endOfInput : endOfInput.bars = false := rfl

/-- The tokens that stop a run like the end of the input. -/
theorem Token.bars_cases {token : Token} (h : token.bars = true) : token = .statementEnd ∨ token = .keyword .function := by
  unfold bars at h
  split at h
  · exact Or.inl rfl
  · exact Or.inr rfl
  · cases h

/-- Two runs see the same token, or the second is over where the first stands in front of a token that stops it too. -/
def Level (s t : State) : Prop := t.current = s.current ∨ (t.current = .endOfInput ∧ s.current.bars = true)

namespace Level

variable {s t : State}

/-- Where nothing stops the first run, the second sees the same token. -/
theorem same (h : Level s t) (hbars : s.current.bars = false) : t.current = s.current := by
  rcases h with htoken | ⟨_, hstop⟩
  · exact htoken
  · rw [hbars] at hstop
    cases hstop

/-- A mark that the first run does not see is not seen by the second. -/
theorem not_isPunct (h : Level s t) {c : Char} (hc : ¬s.current.isPunct c = true) : ¬t.current.isPunct c = true := by
  rcases h with htoken | ⟨hover, _⟩
  · rwa [htoken]
  · simp [hover, Token.isPunct]

end Level

/-- The first of two runs stands in front of a token that is never read, among its last `kept` tokens, and the second in front of a
token that does not go on with what is in front of the separators. -/
structure Aside (kept : Nat) (s t : State) : Prop where
  inert : s.current = .inert
  last : s.remaining ≤ kept
  halts : t.current.Halts

/-- A run that stands aside is not over. -/
theorem Aside.current_ne_end {kept : Nat} {s t : State} (h : Aside kept s t) : s.current ≠ .endOfInput := by
  rw [h.inert]
  exact fun hend => Token.noConfusion hend

/-- The wording for a declaration without a value. -/
def uninitialized (name : String) : String := "'" ++ name ++ "' has no initializer"

/-- A relation between the states of two runs that reading a token keeps. -/
structure Simulation where
  Rel : State → State → Prop
  Err : Diagnostic → Diagnostic → Prop
  /-- What becomes of a name in the second run. -/
  rename : String → String
  /-- Whether there are constructs that may go on behind a separator. -/
  Spans : Prop
  /-- The number of tokens at the end of the first run that are not to be read. -/
  kept : Nat
  token {s t : State} : Rel s t → Level s t ∨ Aside kept s t
  spans {s t : State} : Rel s t → s.current.spansSeparators = true → Spans
  read {s t : State} : Rel s t → t.current = s.current → s.current ≠ .endOfInput → s.current ≠ .statementEnd → kept < s.remaining →
    Corresponds (fun s t => Rel s t ∧ Level s t) Err id (advance s) (advance t)
  skip {s t : State} : Spans → Rel s t →
    Beyond kept (skipStatementEnds s) ∨ Corresponds Rel Err id (skipStatementEnds s) (skipStatementEnds t)
  note {s t : State} (event event' : Event) : Rel s t → Rel (s.note event) (t.note event')
  enter {s t : State} : Rel s t → Rel s.enter t.enter
  leave {s t : State} : Rel s t → Rel s.leave t.leave
  unexpected {s t : State} (expected : String) : Rel s t → Err (s.unexpected expected) (t.unexpected expected)
  invalid {s t : State} (detail : String) : Rel s t → Err (s.invalidDeclaration detail) (t.invalidDeclaration detail)
  uninitialized {s t : State} (name : String) : Rel s t →
    Err (s.invalidDeclaration (uninitialized name)) (t.invalidDeclaration (uninitialized (rename name)))
  resolve {s t : State} (name : String) : Rel s t →
    t.workspace.externals.resolve name = rename (s.workspace.externals.resolve name)
  depth {s t : State} : Rel s t → t.workspace.depth = s.workspace.depth
  globalName {s t : State} : Rel s t → t.workspace.globalName = s.workspace.globalName

namespace Beyond

variable {α β : Type} {kept : Nat} {s : State}

/-- What goes on behind a token that was not to be read stays behind it. -/
theorem bind {p : Production α} {f : α → Production β} (h : Beyond kept (p s)) (hf : ∀ a n, Agree n (f a) (f a)) :
    Beyond kept ((p >>= f) s) := by
  cases hp : p s with
  | ok a s₁ =>
    rw [hp] at h
    have hlt : s₁.remaining < kept := h
    rw [bind_of_ok hp]
    cases hr : f a s₁ with
    | ok b s₂ =>
      have hbound := (hf a (kept - 1) s₁ (by omega)).bound b s₂ hr
      show s₂.remaining < kept
      omega
    | error d s₂ => exact Nat.zero_lt_of_lt hlt
  | error d s₁ =>
    rw [hp] at h
    rw [bind_of_error hp]
    exact h

/-- A production that has to use up a token fails or reads one that was not to be read, if no other is there. -/
theorem of_consumes {p : Production α} (hc : Consumes p) (hend : s.current ≠ .endOfInput) (hlast : s.remaining ≤ kept) :
    Beyond kept (p s) := by
  cases hp : p s with
  | ok a t => exact Nat.lt_of_lt_of_le (hc s a t hp) hlast
  | error d t => exact Nat.lt_of_lt_of_le (s.remaining_pos hend) hlast

/-- Reading one of the last `kept` tokens, or failing at it, goes beyond. -/
theorem advance (hend : s.current ≠ .endOfInput) (hlast : s.remaining ≤ kept) : Beyond kept (Production.advance s) := by
  cases hp : Production.advance s with
  | ok a t => exact Nat.lt_of_lt_of_le (advance_remaining_lt hp hend) hlast
  | error d t => exact Nat.lt_of_lt_of_le (s.remaining_pos hend) hlast

end Beyond

namespace Simulation

/-- Two productions lead to corresponding results from the given states, and leave no more tokens than there were; or the first goes
beyond what the second is compared with. -/
inductive At (S : Simulation) {α : Type} (s t : State) (φ : α → α) (p q : Production α) : Prop where
  | ok {a : α} {s' t' : State} : p s = .ok a s' → q t = .ok (φ a) t' → S.Rel s' t' → s'.remaining ≤ s.remaining →
      t'.remaining ≤ t.remaining → At S s t φ p q
  | error {d e : Diagnostic} {s' t' : State} : p s = .error d s' → q t = .error e t' → S.Err d e → S.Rel s' t' → At S s t φ p q
  | beyond : Beyond S.kept (p s) → At S s t φ p q

/-- Two productions lead to corresponding results from corresponding states in which at most `n` and `m` tokens remain. -/
structure UpTo (S : Simulation) {α : Type} (n m : Nat) (φ : α → α) (p q : Production α) : Prop where
  steps : ∀ k, Agree k p p
  run : ∀ {s t : State}, S.Rel s t → s.remaining ≤ n → t.remaining ≤ m → S.At s t φ p q

/-- Where the first run is over the second is too. -/
theorem ended (S : Simulation) {s t : State} (h : S.Rel s t) (hend : s.current = .endOfInput) : t.current = .endOfInput := by
  rcases S.token h with hlevel | haside
  · exact (hlevel.same (by simp [hend])).trans hend
  · exact absurd hend haside.current_ne_end

/-- What becomes of an expression in the second run. -/
def image (S : Simulation) : Expr → Expr := Expr.renamed S.rename

variable {S : Simulation} {α β : Type} {φ : α → α} {ψ : β → β} {n m : Nat} {s t : State}

namespace At

/-- What two productions lead to depends on their results only. -/
theorem congr {p q p' q' : Production α} (h : S.At s t φ p' q') (hp : p s = p' s) (hq : q t = q' t) : S.At s t φ p q := by
  cases h with
  | ok hp' hq' hrel hs ht => exact .ok (hp.trans hp') (hq.trans hq') hrel hs ht
  | error hp' hq' herr hrel => exact .error (hp.trans hp') (hq.trans hq') herr hrel
  | beyond hp' => exact .beyond (hp ▸ hp')

/-- Two productions one after the other, where the first is known to have succeeded when the second begins. -/
theorem bind_ok {p q : Production α} {f g : α → Production β} (hp : S.At s t φ p q) (hsteps : ∀ a k, Agree k (f a) (f a))
    (hf : ∀ a s' t', p s = .ok a s' → q t = .ok (φ a) t' → S.Rel s' t' → s'.remaining ≤ s.remaining →
      t'.remaining ≤ t.remaining → S.At s' t' ψ (f a) (g (φ a))) : S.At s t ψ (p >>= f) (q >>= g) := by
  cases hp with
  | ok hp hq hrel hs ht =>
    cases hf _ _ _ hp hq hrel hs ht with
    | ok hp' hq' hrel' hs' ht' =>
      exact .ok (by rw [bind_of_ok hp, hp']) (by rw [bind_of_ok hq, hq']) hrel' (Nat.le_trans hs' hs) (Nat.le_trans ht' ht)
    | error hp' hq' herr hrel' => exact .error (by rw [bind_of_ok hp, hp']) (by rw [bind_of_ok hq, hq']) herr hrel'
    | beyond hp' => exact .beyond (by rwa [bind_of_ok hp])
  | error hp hq herr hrel => exact .error (bind_of_error hp) (bind_of_error hq) herr hrel
  | beyond hp => exact .beyond (hp.bind hsteps)

/-- One production after another, the second from whatever states the first leaves. -/
theorem bind {p q : Production α} {f g : α → Production β} (hp : S.At s t φ p q) (hs : s.remaining ≤ n) (ht : t.remaining ≤ m)
    (hf : ∀ a, S.UpTo n m ψ (f a) (g (φ a))) : S.At s t ψ (p >>= f) (q >>= g) :=
  hp.bind_ok (fun a => (hf a).steps) fun a _ _ _ _ hrel hs' ht' => (hf a).run hrel (Nat.le_trans hs' hs) (Nat.le_trans ht' ht)

/-- A value that is at hand, in corresponding states. -/
theorem pure (h : S.Rel s t) (a : α) : S.At s t φ (Pure.pure a) (Pure.pure (φ a)) :=
  .ok rfl rfl h (Nat.le_refl _) (Nat.le_refl _)

/-- Both runs give up with the same expectation. -/
theorem unexpected (h : S.Rel s t) (expected : String) :
    S.At s t φ (Production.unexpected expected) (Production.unexpected expected) :=
  .error rfl rfl (S.unexpected expected h) h

/-- The lookahead may be looked at first. -/
theorem current_bind {f g : Token → Production β} (h : S.At s t ψ (f s.current) (g t.current)) :
    S.At s t ψ (Production.current >>= f) (Production.current >>= g) :=
  h.congr rfl rfl

/-- The state may be looked at first. -/
theorem get_bind {f g : State → Production β} (h : S.At s t ψ (f s) (g t)) : S.At s t ψ (get >>= f) (get >>= g) :=
  h.congr rfl rfl

/-- In front of a token that is neither a separator nor the end of the input both runs read on, and have one token less. What they see
then is the same, or the separator behind which the second run is over. -/
theorem advance_level {f g : Unit → Production β} (h : S.Rel s t) (htoken : t.current = s.current) (hend : s.current ≠ .endOfInput)
    (hsep : s.current ≠ .statementEnd) (hs : s.remaining ≤ n + 1) (ht : t.remaining ≤ m + 1)
    (hsteps : ∀ k, Agree k (f ()) (f ()))
    (hf : ∀ {s' t'}, S.Rel s' t' → Level s' t' → s'.remaining ≤ n → t'.remaining ≤ m → S.At s' t' ψ (f ()) (g ())) :
    S.At s t ψ (advance >>= f) (advance >>= g) := by
  by_cases hlast : s.remaining ≤ S.kept
  · exact .beyond ((Beyond.advance hend hlast).bind fun _ => hsteps)
  have hcorr := S.read h htoken hend hsep (Nat.lt_of_not_le hlast)
  generalize hp : advance s = first at hcorr
  generalize hq : advance t = second at hcorr
  cases hcorr with
  | @ok s' t' _ hrel =>
    obtain ⟨hrel, hlevel⟩ := hrel
    have hsl := advance_remaining_lt hp hend
    have htl := advance_remaining_lt hq (htoken ▸ hend)
    have hread : S.At s t id advance advance := .ok hp hq hrel (Nat.le_of_lt hsl) (Nat.le_of_lt htl)
    refine hread.bind_ok (fun _ => hsteps) fun _ s₁ t₁ hp₁ hq₁ _ _ _ => ?_
    rw [hp] at hp₁
    rw [hq] at hq₁
    cases hp₁
    cases hq₁
    exact hf hrel hlevel (by omega) (by omega)
  | error herr hrel => exact .error (bind_of_error hp) (bind_of_error hq) herr hrel.1

/-- A token that both runs see is read, and fewer tokens remain for what follows. -/
theorem advance_bind {f g : Unit → Production β} (h : S.Rel s t) (htoken : t.current = s.current) (hend : s.current ≠ .endOfInput)
    (hsep : s.current ≠ .statementEnd) (hs : s.remaining ≤ n + 1) (ht : t.remaining ≤ m + 1) (hf : S.UpTo n m ψ (f ()) (g ())) :
    S.At s t ψ (advance >>= f) (advance >>= g) :=
  advance_level h htoken hend hsep hs ht hf.steps fun h _ => hf.run h

/-- A given character is read where it stands in both runs. -/
theorem expectPunct_bind {c : Char} {expected : String} {f g : Unit → Production β} (h : S.Rel s t) (hs : s.remaining ≤ n + 1)
    (ht : t.remaining ≤ m + 1) (hf : S.UpTo n m ψ (f ()) (g ())) :
    S.At s t ψ (expectPunct c expected >>= f) (expectPunct c expected >>= g) := by
  have hread : ∀ {u : State}, u.current.isPunct c = true → expectPunct c expected u = advance u := by
    intro u hu
    simp [expectPunct, hu]
  have hfail : ∀ {u : State}, ¬u.current.isPunct c = true → expectPunct c expected u = .error (u.unexpected expected) u := by
    intro u hu
    simp [expectPunct, hu]
  rcases S.token h with (htoken | ⟨hover, hbars⟩) | haside
  · by_cases hc : s.current.isPunct c = true
    · have hpunct : s.current = .punct c := eq_of_beq hc
      have hadvance := advance_bind h htoken (by simp [hpunct]) (by simp [hpunct]) hs ht hf
      exact hadvance.congr (bind_congr_left (hread hc)) (bind_congr_left (hread (htoken ▸ hc)))
    · exact .error (bind_of_error (hfail hc)) (bind_of_error (hfail (htoken ▸ hc))) (S.unexpected expected h) h
  · have hnone : ¬s.current.isPunct c = true := by
      rcases Token.bars_cases hbars with hc | hc <;> simp [hc, Token.isPunct]
    exact .error (bind_of_error (hfail hnone)) (bind_of_error (hfail (by simp [hover, Token.isPunct]))) (S.unexpected expected h) h
  · exact .beyond ((Beyond.of_consumes (consumes_expectPunct c expected) haside.current_ne_end haside.last).bind fun _ => hf.steps)

/-- A name is read where it stands in both runs. -/
theorem identifier_bind {expected : String} {f g : String → Production β} (h : S.Rel s t) (hs : s.remaining ≤ n + 1)
    (ht : t.remaining ≤ m + 1) (hsteps : ∀ name k, Agree k (f name) (f name))
    (hf : ∀ name {s' t'}, S.Rel s' t' → Level s' t' → s'.remaining ≤ n → t'.remaining ≤ m → S.At s' t' ψ (f name) (g name)) :
    S.At s t ψ (identifier expected >>= f) (identifier expected >>= g) := by
  have hread : ∀ {u : State} {name : String} (k : String → Production β), u.current = .identifier name →
      (identifier expected >>= k) u = (advance >>= fun _ => k name) u := by
    intro u name k hu
    simp only [identifier, bind_assoc, Production.current_bind, hu]
    rfl
  have hfail : ∀ {u : State}, (∀ name, u.current ≠ .identifier name) → identifier expected u = .error (u.unexpected expected) u := by
    intro u hu
    cases hc : u.current with
    | identifier name => exact absurd hc (hu name)
    | _ => simp [identifier, hc]
  rcases S.token h with (htoken | ⟨hover, hbars⟩) | haside
  · by_cases hname : ∃ name, s.current = .identifier name
    · obtain ⟨name, hc⟩ := hname
      have hadvance := advance_level (f := fun _ => f name) (g := fun _ => g name) h htoken (by simp [hc]) (by simp [hc]) hs ht
        (hsteps name) (hf name)
      exact hadvance.congr (hread f hc) (hread g (htoken.trans hc))
    · have hnone : ∀ name, s.current ≠ .identifier name := fun name hc => hname ⟨name, hc⟩
      exact .error (bind_of_error (hfail hnone)) (bind_of_error (hfail (htoken ▸ hnone))) (S.unexpected expected h) h
  · have hnone : ∀ name, s.current ≠ .identifier name := by
      rcases Token.bars_cases hbars with hc | hc <;> simp [hc]
    exact .error (bind_of_error (hfail hnone)) (bind_of_error (hfail (by simp [hover]))) (S.unexpected expected h) h
  · exact .beyond ((Beyond.of_consumes (consumes_identifier expected) haside.current_ne_end haside.last).bind hsteps)

end At

namespace UpTo

/-- Productions one after another correspond if each of them does. -/
theorem bind {p q : Production α} {f g : α → Production β} (hp : S.UpTo n m φ p q) (hf : ∀ a, S.UpTo n m ψ (f a) (g (φ a))) :
    S.UpTo n m ψ (p >>= f) (q >>= g) where
  steps k := (hp.steps k).bind fun a => (hf a).steps k
  run h hs ht := (hp.run h hs ht).bind hs ht hf

theorem pure (a : α) : S.UpTo n m φ (Pure.pure a) (Pure.pure (φ a)) where
  steps _ := Agree.pure a
  run h _ _ := .pure h a

/-- What holds up to more tokens holds up to fewer. -/
theorem mono {n' m' : Nat} {p q : Production α} (hp : S.UpTo n m φ p q) (hn : n' ≤ n) (hm : m' ≤ m) : S.UpTo n' m' φ p q where
  steps := hp.steps
  run h hs ht := hp.run h (Nat.le_trans hs hn) (Nat.le_trans ht hm)

/-- Values made from corresponding values correspond. -/
theorem map {f : α → β} {p q : Production α} (hp : S.UpTo n m φ p q) (hf : ∀ a, f (φ a) = ψ (f a)) :
    S.UpTo n m ψ (f <$> p) (f <$> q) := by
  rw [map_eq_bind, map_eq_bind]
  refine hp.bind fun a => ?_
  rw [hf]
  exact pure (f a)

/-- Events are not compared. -/
theorem note (event event' : Event) : S.UpTo n m id (Production.note event) (Production.note event') where
  steps _ := Agree.note event
  run h _ _ := .ok rfl rfl (S.note event event' h) (Nat.le_refl _) (Nat.le_refl _)

/-- Giving up corresponds to giving up. -/
theorem unexpected (expected : String) : S.UpTo n m φ (Production.unexpected expected) (Production.unexpected expected) where
  steps _ := Agree.unexpected expected
  run h _ _ := .unexpected h expected

theorem invalid (detail : String) : S.UpTo n m φ (invalidDeclaration detail) (invalidDeclaration detail) where
  steps _ := Agree.invalidDeclaration detail
  run h _ _ := .error rfl rfl (S.invalid detail h) h

/-- A mark is found by both runs or by neither. -/
theorem expectPunct (c : Char) (expected : String) :
    S.UpTo n m id (Production.expectPunct c expected) (Production.expectPunct c expected) where
  steps _ := Agree.expectPunct c expected
  run {s t} h hs ht := by
    have hbind : S.At s t id (Production.expectPunct c expected >>= Pure.pure) (Production.expectPunct c expected >>= Pure.pure) :=
      At.expectPunct_bind h (Nat.le_succ_of_le hs) (Nat.le_succ_of_le ht) (UpTo.pure (φ := id) ())
    simpa using hbind

/-- A name is found by both runs or by neither. -/
theorem identifier (expected : String) : S.UpTo n m id (Production.identifier expected) (Production.identifier expected) where
  steps _ := Agree.identifier expected
  run {s t} h hs ht := by
    have hbind : S.At s t id (Production.identifier expected >>= Pure.pure) (Production.identifier expected >>= Pure.pure) :=
      At.identifier_bind h (Nat.le_succ_of_le hs) (Nat.le_succ_of_le ht) (fun name _ => Agree.pure name)
        fun name _ _ h _ _ _ => .pure (φ := id) h name
    simpa using hbind

/-- Separators are passed over by both runs if there are constructs that may go on behind them. -/
theorem skipStatementEnds (hspans : S.Spans) : S.UpTo n m id Production.skipStatementEnds Production.skipStatementEnds where
  steps _ := Agree.skipStatementEnds
  run {s t} h _ _ := by
    have hskip := S.skip hspans h
    generalize hp : Production.skipStatementEnds s = first at hskip
    generalize hq : Production.skipStatementEnds t = second at hskip
    rcases hskip with hbeyond | hcorr
    · exact .beyond (hp ▸ hbeyond)
    cases hcorr with
    | ok a hrel =>
      exact .ok hp hq hrel ((Agree.skipStatementEnds s (Nat.le_refl _)).bound _ _ hp)
        ((Agree.skipStatementEnds t (Nat.le_refl _)).bound _ _ hq)
    | error herr hrel => exact .error hp hq herr hrel

/-- Both runs open a block and close it. -/
theorem insideBlock {p q : Production α} (hp : S.UpTo n m φ p q) : S.UpTo n m φ (Grammar.insideBlock p) (Grammar.insideBlock q) where
  steps k := (hp.steps k).insideBlock
  run {s t} h hs ht := by
    cases hp.run (S.enter h) hs ht with
    | ok hp hq hrel hs' ht' =>
      exact .ok (by rw [insideBlock_apply, hp]) (by rw [insideBlock_apply, hq]) (S.leave hrel) hs' ht'
    | error hp hq herr hrel =>
      exact .error (by rw [insideBlock_apply, hp]) (by rw [insideBlock_apply, hq]) herr (S.leave hrel)
    | beyond hp =>
      refine .beyond ?_
      rw [insideBlock_apply]
      cases hr : p s.enter with
      | ok a s' => rw [hr] at hp; exact hp
      | error d s' => rw [hr] at hp; exact hp

/-- A character that may stand in front is read, and what is behind it follows; or something else does, which uses up a token. -/
theorem ifPunct {c : Char} {x x' y y' : Production β} (hx : ∀ k, Agree k x x)
    (hread : ∀ {i j}, n = i + 1 → m = j + 1 → S.UpTo i j ψ x x') (hc : Consumes y) (hy : S.UpTo n m ψ y y') :
    S.UpTo n m ψ (do if (← current).isPunct c then advance; x else y) (do if (← current).isPunct c then advance; x' else y') where
  steps k := by
    refine Agree.current.bind fun token => ?_
    split
    · exact Agree.advance.bind fun _ => hx k
    · exact hy.steps k
  run {s t} h hs ht := by
    rcases S.token h with hlevel | haside
    · apply At.current_bind
      by_cases hpunct : s.current.isPunct c = true
      · have hcurrent : s.current = .punct c := eq_of_beq hpunct
        have htoken := hlevel.same (by simp [hcurrent])
        have hpos := s.remaining_pos (by simp [hcurrent])
        have hpos' := t.remaining_pos (by simp [htoken, hcurrent])
        obtain ⟨i, rfl⟩ : ∃ i, n = i + 1 := ⟨n - 1, by omega⟩
        obtain ⟨j, rfl⟩ : ∃ j, m = j + 1 := ⟨m - 1, by omega⟩
        rw [htoken, if_pos hpunct, if_pos hpunct]
        exact At.advance_bind h htoken (by simp [hcurrent]) (by simp [hcurrent]) hs ht (hread rfl rfl)
      · rw [if_neg hpunct, if_neg (hlevel.not_isPunct hpunct)]
        exact hy.run h hs ht
    · exact .beyond (Beyond.of_consumes (consumes_ifPunct hx hc) haside.current_ne_end haside.last)

end UpTo

/-! ## Loops -/

section

variable {operand : Production Expr} {least : Nat} {left : Expr}

/-- Where no operator stands that binds tightly enough a chain of operations ends, whatever its bound. -/
theorem operationsUpTo_stop (h : ∀ op, Operator.ofToken? s.current = some op → op.precedence < least) (k : Nat) :
    Grammar.operationsUpTo operand k least left s = .ok left s := by
  cases k with
  | zero => rfl
  | succ k =>
    rw [Grammar.operationsUpTo, Production.current_bind]
    cases hop : Operator.ofToken? s.current with
    | none => rfl
    | some op => exact congrFun (if_pos (h op hop)) s

/-- An operator that binds tightly enough is read with its right operand and with the operations that take this operand away. -/
theorem operationsUpTo_operator {op : Operator} (hop : Operator.ofToken? s.current = some op) (hle : least ≤ op.precedence) (k : Nat) :
    Grammar.operationsUpTo operand (k + 1) least left s =
      (advance >>= fun _ => operand >>= fun right => Grammar.operationsUpTo operand k (op.precedence + 1) right >>= fun right =>
        Grammar.operationsUpTo operand k least (.operation left op.symbol right)) s := by
  rw [Grammar.operationsUpTo, Production.current_bind, hop]
  simp only [if_neg (Nat.not_lt.mpr hle)]
  refine bind_congr_ok fun _ s₁ _ => bind_congr_ok fun right s₂ _ => ?_
  rw [Production.current_bind]
  -- where no operator takes the right operand away the inner chain ends at once
  cases hnext : Operator.ofToken? s₂.current with
  | none =>
    rw [bind_of_ok (operationsUpTo_stop (by intro op' hop'; rw [hnext] at hop'; cases hop') k)]
    rfl
  | some next =>
    dsimp only
    split
    · rfl
    · rename_i hloose
      rw [bind_of_ok (operationsUpTo_stop (by intro op' hop'; rw [hnext] at hop'; cases hop'; omega) k)]
      rfl

/-- Where separators have been passed over no separator stands. -/
theorem current_of_skipStatementEnds {a : Unit} {s' : State} (h : skipStatementEnds s = .ok a s') : s'.current ≠ .statementEnd := by
  generalize hn : s.remaining = n
  induction n using Nat.strongRecOn generalizing s with
  | ind n ih =>
    rw [skipStatementEnds_eq, Production.current_bind] at h
    split at h
    · rename_i hc
      obtain ⟨_, s₁, h₁, h⟩ := bind_eq_ok.mp h
      exact ih _ (hn ▸ advance_remaining_lt h₁ (by simp [hc])) h rfl
    · rename_i hc
      cases h
      exact hc

/-- At the end of the input a block is over, whatever its bound. -/
theorem statementsUpTo_end (h : s.current = .endOfInput) (k : Nat) : Grammar.statementsUpTo operand k s = .ok [] s := by
  cases k with
  | zero => rfl
  | succ k =>
    have hskip : skipStatementEnds s = .ok () s := by
      rw [skipStatementEnds_eq, Production.current_bind, h]
      rfl
    rw [Grammar.statementsUpTo, bind_of_ok hskip, Production.current_bind, h]
    rfl

end

namespace UpTo

/-- The induction is on the bound of the first run; that of the second only has to be large enough. -/
theorem itemsUpTo {p q : Production α} (k : Nat) : ∀ {n m l : Nat}, S.UpTo n m φ p q → n < k → m < l →
    S.UpTo n m (List.map φ) (Production.itemsUpTo p k) (Production.itemsUpTo q l) := by
  induction k with
  | zero => intro n m l _ hk; omega
  | succ k ih =>
    intro n m l hp hk hl
    obtain ⟨l, rfl⟩ : ∃ i, l = i + 1 := ⟨l - 1, by omega⟩
    refine hp.bind fun first => ifPunct (fun j => ?_) (fun hn hm => ?_) ?_
      (ifPunct (fun j => Agree.pure _) (fun _ _ => pure (φ := List.map φ) [first]) (consumes_unexpected _) (unexpected _))
    · exact ((hp.steps j).itemsUpTo k).bind fun rest => Agree.pure _
    · exact (ih (hp.mono (by omega) (by omega)) (by omega) (by omega)).bind fun rest => pure (φ := List.map φ) (first :: rest)
    · exact consumes_ifPunct (fun j => Agree.pure _) (consumes_unexpected _)

/-- Lists correspond item by item. -/
theorem commaSeparated {p q : Production α} (hc : Consumes p) (hp : S.UpTo n m φ p q) :
    S.UpTo n m (List.map φ) (Production.commaSeparated p) (Production.commaSeparated q) := by
  have hitems : Consumes (bounded fun n => Production.itemsUpTo p (n + 1)) := fun s =>
    hc.bind (fun first j => Agree.current.bind fun token => by
      split
      · exact Agree.advance.bind fun _ => ((hp.steps j).itemsUpTo _).bind fun rest => Agree.pure _
      · refine Agree.current.bind fun token => ?_
        split
        · exact Agree.advance.bind fun _ => Agree.pure _
        · exact Agree.unexpected _) s
  refine ifPunct (fun j => Agree.pure _) (fun _ _ => pure (φ := List.map φ) []) hitems ⟨fun j => ?_, fun {s t} h hs ht => ?_⟩
  · exact Agree.bounded fun k => (hp.steps j).itemsUpTo (k + 1)
  · have hitems := itemsUpTo (s.remaining + 1) (l := t.remaining + 1) (hp.mono hs ht) (Nat.lt_succ_self _) (Nat.lt_succ_self _)
    exact (hitems.run h (Nat.le_refl _) (Nat.le_refl _)).congr rfl rfl

variable {p q : Production Expr}

/-- The operators are seen by both runs, and the operands correspond. The induction is on the bound of the first run. -/
theorem operationsUpTo (k : Nat) : ∀ {n m l : Nat}, S.UpTo n m S.image p q → n ≤ k → m ≤ l → ∀ (least : Nat) (left : Expr),
    S.UpTo n m S.image (Grammar.operationsUpTo p k least left) (Grammar.operationsUpTo q l least (S.image left)) := by
  induction k with
  | zero =>
    intro n m l hp hk hl least left
    refine ⟨fun j => (hp.steps j).operationsUpTo 0 least left, fun {s t} h hs ht => ?_⟩
    have hend := State.current_of_remaining_eq_zero (Nat.le_zero.mp (Nat.le_trans hs hk))
    refine .ok rfl (operationsUpTo_stop ?_ l) h (Nat.le_refl _) (Nat.le_refl _)
    intro op hop
    rw [S.ended h hend] at hop
    cases hop
  | succ k ih =>
    intro n m l hp hk hl least left
    refine ⟨fun j => (hp.steps j).operationsUpTo (k + 1) least left, fun {s t} h hs ht => ?_⟩
    by_cases hstop : ∀ op, Operator.ofToken? s.current = some op → op.precedence < least
    · have hstop' : ∀ op, Operator.ofToken? t.current = some op → op.precedence < least := by
        intro op hop
        rcases S.token h with (htoken | ⟨hover, _⟩) | haside
        · exact hstop op (htoken ▸ hop)
        · rw [hover] at hop
          cases hop
        · rw [haside.halts.operator] at hop
          cases hop
      exact .ok (operationsUpTo_stop hstop _) (operationsUpTo_stop hstop' l) h (Nat.le_refl _) (Nat.le_refl _)
    -- an operator that binds tightly enough is read, with its right operand
    obtain ⟨op, hop, hle⟩ : ∃ op, Operator.ofToken? s.current = some op ∧ least ≤ op.precedence := by
      rw [Classical.not_forall] at hstop
      obtain ⟨op, hstop⟩ := hstop
      rw [Classical.not_imp] at hstop
      exact ⟨op, hstop.1, Nat.le_of_not_lt hstop.2⟩
    have hc := Operator.eq_punct_of_ofToken? hop
    have hpos := s.remaining_pos (by simp [hc])
    rcases S.token h with hlevel | haside
    · have htoken := hlevel.same (by simp [hc])
      have hpos' := t.remaining_pos (by simp [htoken, hc])
      obtain ⟨i, rfl⟩ : ∃ i, n = i + 1 := ⟨n - 1, by omega⟩
      obtain ⟨j, rfl⟩ : ∃ j, m = j + 1 := ⟨m - 1, by omega⟩
      obtain ⟨l, rfl⟩ : ∃ i, l = i + 1 := ⟨l - 1, by omega⟩
      have hless := hp.mono (Nat.le_succ i) (Nat.le_succ j)
      have hinner := ih hless (Nat.le_of_succ_le_succ hk) (Nat.le_of_succ_le_succ hl)
      refine At.congr (At.advance_bind h htoken (by simp [hc]) (by simp [hc]) hs ht ?_) (operationsUpTo_operator hop hle k)
        (operationsUpTo_operator (htoken ▸ hop) hle l)
      exact hless.bind fun right => (hinner (op.precedence + 1) right).bind fun right =>
        hinner least (.operation left op.symbol right)
    · rw [haside.inert] at hop
      cases hop

/-- Both bounds are met by the tokens that are left. -/
theorem operationsWith (hp : S.UpTo n m S.image p q) (least : Nat) (left : Expr) :
    S.UpTo n m S.image (Grammar.operationsWith p least left) (Grammar.operationsWith q least (S.image left)) where
  steps k := (hp.steps k).operationsWith least left
  run {s t} h hs ht :=
    ((operationsUpTo s.remaining (l := t.remaining) (hp.mono hs ht) (Nat.le_refl _) (Nat.le_refl _) least left).run h
      (Nat.le_refl _) (Nat.le_refl _)).congr rfl rfl

theorem expressionWith (hp : S.UpTo n m S.image p q) :
    S.UpTo n m S.image (Grammar.expressionWith p) (Grammar.expressionWith q) :=
  hp.bind fun left => operationsWith hp 0 left

/-- One statement of a block, where the two runs correspond in the statements behind it. -/
theorem statementsUpTo_succ (hspans : S.Spans) (hcp : Consumes p) (hcq : Consumes q) (hp : S.UpTo n m S.image p q) {k l : Nat} {s t : State}
    (h : S.Rel s t) (hs : s.remaining ≤ n) (ht : t.remaining ≤ m)
    (ih : ∀ {s' t' : State}, S.Rel s' t' → s'.remaining < s.remaining → t'.remaining < t.remaining →
      S.At s' t' (List.map S.image) (Grammar.statementsUpTo p k) (Grammar.statementsUpTo q l)) :
    S.At s t (List.map S.image) (Grammar.statementsUpTo p (k + 1)) (Grammar.statementsUpTo q (l + 1)) := by
  have hexpression := expressionWith hp
  have hrest : ∀ j, Agree j (Grammar.statementsUpTo p k) (Grammar.statementsUpTo p k) := fun j => (hp.steps j).statementsUpTo k
  refine ((skipStatementEnds hspans).run h hs ht).bind_ok (fun _ j => ?_) fun _ s₁ t₁ hskip _ h₁ hs₁ ht₁ => ?_
  · refine Agree.current.bind fun token => ?_
    split
    · exact Agree.advance.bind fun _ => Agree.pure []
    · exact Agree.pure []
    · exact Agree.pure []
    · exact (hexpression.steps j).bind fun statement => (hrest j).bind fun rest => Agree.pure _
  apply At.current_bind
  rcases S.token h₁ with (htoken | ⟨hover, hbars⟩) | haside
  · rw [htoken]
    split
    · rename_i hc
      exact At.advance_bind h₁ htoken (by simp [hc]) (by simp [hc]) (Nat.le_succ _) (Nat.le_succ _) (pure (φ := List.map S.image) [])
    · exact .pure (φ := List.map S.image) h₁ []
    · exact .pure (φ := List.map S.image) h₁ []
    · refine (hexpression.run h₁ (Nat.le_trans hs₁ hs) (Nat.le_trans ht₁ ht)).bind_ok
        (fun statement j => (hrest j).bind fun rest => Agree.pure _) fun statement s₂ t₂ hfirst hfirst' h₂ _ _ => ?_
      have hlt := Grammar.consumes_expressionWith hcp _ _ _ hfirst
      have hlt' := Grammar.consumes_expressionWith hcq _ _ _ hfirst'
      exact (ih h₂ (by omega) (by omega)).bind (Nat.le_refl _) (Nat.le_refl _) fun rest =>
        pure (φ := List.map S.image) (statement :: rest)
  · -- a function ends the block, as the end of the input does
    have hfunction := (Token.bars_cases hbars).resolve_left (current_of_skipStatementEnds hskip)
    rw [hover, hfunction]
    exact .pure (φ := List.map S.image) h₁ []
  · rw [haside.inert]
    exact .beyond ((Beyond.of_consumes (Grammar.consumes_expressionWith hcp) haside.current_ne_end haside.last).bind fun statement j =>
      (hrest j).bind fun rest => Agree.pure _)

/-- Statements correspond one by one. The induction is on the bound of the first run. -/
theorem statementsUpTo (hspans : S.Spans) (hcp : Consumes p) (hcq : Consumes q) (hp : S.UpTo n m S.image p q) (k : Nat) :
    ∀ {l : Nat} {s t : State}, S.Rel s t → s.remaining ≤ n → t.remaining ≤ m → s.remaining ≤ k → t.remaining ≤ l →
      S.At s t (List.map S.image) (Grammar.statementsUpTo p k) (Grammar.statementsUpTo q l) := by
  -- a run without tokens has no bound left, and does what it would do with a bound of one
  have hmore : ∀ {operand : Production Expr} {u : State}, u.remaining = 0 →
      Grammar.statementsUpTo operand 0 u = Grammar.statementsUpTo operand 1 u := by
    intro operand u hu
    have hend := State.current_of_remaining_eq_zero hu
    rw [statementsUpTo_end hend, statementsUpTo_end hend]
  induction k with
  | zero =>
    intro l s t h hs ht hk hl
    cases l with
    | zero => exact .pure (φ := List.map S.image) h []
    | succ l =>
      have hstep := statementsUpTo_succ (k := 0) (l := l) hspans hcp hcq hp h hs ht fun _ hlt _ => by omega
      exact hstep.congr (hmore (Nat.le_zero.mp hk)) rfl
  | succ k ih =>
    intro l s t h hs ht hk hl
    cases l with
    | zero =>
      have hstep := statementsUpTo_succ (k := k) (l := 0) hspans hcp hcq hp h hs ht fun _ _ hlt => by omega
      exact hstep.congr rfl (hmore (Nat.le_zero.mp hl))
    | succ l =>
      exact statementsUpTo_succ hspans hcp hcq hp h hs ht fun h' hlt hlt' => ih h' (by omega) (by omega) (by omega) (by omega)

/-! ## The productions of the grammar -/

/-- The arguments of a call. -/
theorem arguments (hcp : Consumes p) (hp : S.UpTo n m S.image p q) (name : String) :
    S.UpTo n m S.image
      (do
        Production.expectPunct '(' "'(' after a qualified name"
        let arguments ← Production.commaSeparated (Grammar.expressionWith p)
        Production.note (.call name arguments.length)
        return .call name arguments)
      (do
        Production.expectPunct '(' "'(' after a qualified name"
        let arguments ← Production.commaSeparated (Grammar.expressionWith q)
        Production.note (.call (S.rename name) arguments.length)
        return .call (S.rename name) arguments) := by
  refine (expectPunct _ _).bind fun _ => (commaSeparated (Grammar.consumes_expressionWith hcp) (expressionWith hp)).bind
    fun arguments => (note _ _).bind fun _ => ?_
  have hpure := pure (S := S) (n := n) (m := m) (φ := S.image) (.call name arguments)
  simpa [image, Expr.renamed] using hpure

/-- A name with a member is called. -/
theorem namedWith_member (hcp : Consumes p) (hp : S.UpTo n m S.image p q) (first member : String) :
    S.UpTo n m S.image (Grammar.namedWith p first (some member)) (Grammar.namedWith q first (some member)) where
  steps k := (hp.steps k).namedWith first (some member)
  run {s t} h hs ht := by
    apply At.get_bind
    apply At.current_bind
    rw [S.resolve _ h]
    exact (arguments hcp hp _).run h hs ht

/-- What is declared in the second run is the renamed name, with the renamed value. -/
theorem declared (name : String) (chained : Expr) :
    S.UpTo n m S.image (Grammar.declared name chained) (Grammar.declared (S.rename name) (S.image chained)) where
  steps _ := Agree.declared name chained
  run h hs ht := by
    unfold Grammar.declared
    rw [image, Expr.splitAssignment?_renamed]
    cases chained.splitAssignment? with
    | none => exact .error rfl rfl (S.uninitialized name h) h
    | some parts =>
      obtain ⟨first, value⟩ := parts
      cases first with
      | var _ => exact ((note _ _).bind fun _ => pure (φ := S.image) (.declaration name value)).run h hs ht
      | cond test yes no => cases no <;> exact .error rfl rfl (S.uninitialized name h) h
      | _ => exact .error rfl rfl (S.uninitialized name h) h

/-- Behind the separators `else` is seen by both runs or by neither. -/
theorem otherwiseWith (hspans : S.Spans) (hp : S.UpTo n m S.image p q) :
    S.UpTo n m (Option.map S.image) (Grammar.otherwiseWith p) (Grammar.otherwiseWith q) where
  steps k := (hp.steps k).otherwiseWith
  run {s t} h hs ht := by
    have hbranch : S.UpTo n m (Option.map S.image)
        (do Production.skipStatementEnds; some <$> Grammar.expressionWith p)
        (do Production.skipStatementEnds; some <$> Grammar.expressionWith q) :=
      (skipStatementEnds hspans).bind fun _ => (expressionWith hp).map fun _ => rfl
    apply At.current_bind
    rcases S.token h with (htoken | ⟨hover, hbars⟩) | haside
    · rw [htoken]
      split
      · rename_i hc
        exact At.advance_bind h htoken (by simp [hc]) (by simp [hc]) (Nat.le_succ_of_le hs) (Nat.le_succ_of_le ht) hbranch
      · exact .pure (φ := Option.map S.image) h none
    · have hnone : s.current ≠ .keyword .else_ := by
        rcases Token.bars_cases hbars with hc | hc <;> simp [hc]
      rw [hover, if_neg hnone]
      exact .pure (φ := Option.map S.image) h none
    · rw [haside.inert, if_neg haside.halts.otherwise]
      exact .pure (φ := Option.map S.image) h none

end UpTo

/-! ## An operand gains a token on the operands inside it -/

namespace At

variable {p q : Production Expr}

/-- A name is called where a parenthesis stands right behind it. -/
theorem namedWith_bare (hcp : Consumes p) (hp : S.UpTo n m S.image p q) (first : String) (h : S.Rel s t) (hlevel : Level s t)
    (hs : s.remaining ≤ n) (ht : t.remaining ≤ m) :
    S.At s t S.image (Grammar.namedWith p first none) (Grammar.namedWith q first none) := by
  apply get_bind
  apply current_bind
  rw [S.resolve _ h]
  simp only [Option.isSome_none, Bool.false_or]
  by_cases hpunct : s.current.isPunct '(' = true
  · have hcurrent : s.current = .punct '(' := eq_of_beq hpunct
    rw [hlevel.same (by simp [hcurrent]), if_pos hpunct, if_pos hpunct]
    exact (UpTo.arguments hcp hp _).run h hs ht
  · rw [if_neg hpunct, if_neg (hlevel.not_isPunct hpunct)]
    exact .pure (φ := S.image) h (.var _)

/-- Behind a name a member may stand. -/
theorem qualified (hcp : Consumes p) (hp : S.UpTo n m S.image p q) (first : String) (h : S.Rel s t) (hlevel : Level s t)
    (hs : s.remaining ≤ n) (ht : t.remaining ≤ m) :
    S.At s t S.image (Grammar.member? >>= Grammar.namedWith p first) (Grammar.member? >>= Grammar.namedWith q first) := by
  have hread : ∀ {u : State} (operand : Production Expr), u.current.isPunct '.' = true →
      (Grammar.member? >>= Grammar.namedWith operand first) u =
        (advance >>= fun _ => identifier "a member name after '.'" >>= fun member => Grammar.namedWith operand first (some member)) u := by
    intro u operand hu
    rw [Grammar.member?, bind_assoc, Production.current_bind, if_pos hu, map_eq_bind, bind_assoc]
    simp only [bind_assoc, pure_bind]
  have hnone : ∀ {u : State} (operand : Production Expr), ¬u.current.isPunct '.' = true →
      (Grammar.member? >>= Grammar.namedWith operand first) u = Grammar.namedWith operand first none u := by
    intro u operand hu
    rw [Grammar.member?, bind_assoc, Production.current_bind, if_neg hu]
    rfl
  by_cases hpunct : s.current.isPunct '.' = true
  · have hcurrent : s.current = .punct '.' := eq_of_beq hpunct
    have htoken := hlevel.same (by simp [hcurrent])
    refine At.congr (advance_bind h htoken (by simp [hcurrent]) (by simp [hcurrent]) (Nat.le_succ_of_le hs) (Nat.le_succ_of_le ht) ?_)
      (hread p hpunct) (hread q (htoken ▸ hpunct))
    exact (UpTo.identifier _).bind fun member => UpTo.namedWith_member hcp hp first member
  · exact (namedWith_bare hcp hp first h hlevel hs ht).congr (hnone p hpunct) (hnone q (hlevel.not_isPunct hpunct))

/-- A reference is resolved by each run with its own table, and the names correspond. -/
theorem referenceWith (hcp : Consumes p) (hp : S.UpTo n m S.image p q) (h : S.Rel s t) (hs : s.remaining ≤ n + 1)
    (ht : t.remaining ≤ m + 1) : S.At s t S.image (Grammar.referenceWith p) (Grammar.referenceWith q) :=
  identifier_bind h hs ht (fun first k => Agree.member.bind ((hp.steps k).namedWith first))
    fun first _ _ h hlevel hs ht => qualified hcp hp first h hlevel hs ht

/-- Both runs read the keyword, and then the value. -/
theorem returnWith (hp : S.UpTo n m S.image p q) (h : S.Rel s t) (htoken : t.current = s.current)
    (hc : s.current = .keyword .return_) (hs : s.remaining ≤ n + 1) (ht : t.remaining ≤ m + 1) :
    S.At s t S.image (Grammar.returnWith p) (Grammar.returnWith q) :=
  advance_bind h htoken (by simp [hc]) (by simp [hc]) hs ht (hp.expressionWith.bind fun value => UpTo.pure (φ := S.image) (.ret value))

/-- Both runs read the keyword, the target and the chain. -/
theorem declarationWith (hcp : Consumes p) (hp : S.UpTo n m S.image p q) (h : S.Rel s t) (htoken : t.current = s.current)
    (hc : s.current = .keyword .var) (hs : s.remaining ≤ n + 1) (ht : t.remaining ≤ m + 1) :
    S.At s t S.image (Grammar.declarationWith p) (Grammar.declarationWith q) := by
  have href : S.UpTo n m S.image (Grammar.referenceWith p) (Grammar.referenceWith q) :=
    ⟨fun k _ hs => AgreeAt.referenceWith (hp.steps k) (Nat.le_succ_of_le hs),
      fun h hs ht => referenceWith hcp hp h (Nat.le_succ_of_le hs) (Nat.le_succ_of_le ht)⟩
  refine advance_bind h htoken (by simp [hc]) (by simp [hc]) hs ht (href.bind fun e => ?_)
  cases e with
  | var name => exact (hp.operationsWith 0 (.var name)).bind fun chained => UpTo.declared name chained
  | cond test yes no => cases no <;> exact UpTo.invalid _
  | _ => exact UpTo.invalid _

/-- Both runs read the keyword, the test and the branches. -/
theorem conditionalWith (hspans : S.Spans) (hp : S.UpTo n m S.image p q) (h : S.Rel s t) (htoken : t.current = s.current)
    (hc : s.current = .keyword .if_) (hs : s.remaining ≤ n + 1) (ht : t.remaining ≤ m + 1) :
    S.At s t S.image (Grammar.conditionalWith p) (Grammar.conditionalWith q) := by
  refine advance_bind h htoken (by simp [hc]) (by simp [hc]) hs ht ((UpTo.expectPunct _ _).bind fun _ =>
    hp.expressionWith.bind fun test => (UpTo.expectPunct _ _).bind fun _ => (UpTo.skipStatementEnds hspans).bind fun _ =>
      hp.expressionWith.bind fun yes => (UpTo.skipStatementEnds hspans).bind fun _ => (UpTo.otherwiseWith hspans hp).bind fun no =>
        (UpTo.note _ _).bind fun _ => ?_)
  have hpure := UpTo.pure (S := S) (n := n) (m := m) (φ := S.image) (.cond test yes no)
  simpa [image] using hpure

/-- Both runs read the parenthesis, and what it encloses. -/
theorem groupingWith (hp : S.UpTo n m S.image p q) (h : S.Rel s t) (htoken : t.current = s.current)
    (hc : s.current = .punct '(') (hs : s.remaining ≤ n + 1) (ht : t.remaining ≤ m + 1) :
    S.At s t S.image (Grammar.groupingWith p) (Grammar.groupingWith q) :=
  advance_bind h htoken (by simp [hc]) (by simp [hc]) hs ht (hp.expressionWith.bind fun inner => (UpTo.expectPunct _ _).bind fun _ =>
    UpTo.pure inner)

/-- Both runs read the brace, and the statements behind it. -/
theorem blockWith (hspans : S.Spans) (hcp : Consumes p) (hcq : Consumes q) (hp : S.UpTo n m S.image p q) (h : S.Rel s t)
    (hs : s.remaining ≤ n + 1) (ht : t.remaining ≤ m + 1) : S.At s t S.image (Grammar.blockWith p) (Grammar.blockWith q) := by
  have hstatements : S.UpTo n m (List.map S.image) (bounded (Grammar.statementsUpTo p)) (bounded (Grammar.statementsUpTo q)) :=
    ⟨fun k => Agree.bounded (hp.steps k).statementsUpTo, fun h hs ht =>
      (UpTo.statementsUpTo hspans hcp hcq hp _ h hs ht (Nat.le_refl _) (Nat.le_refl _)).congr rfl rfl⟩
  refine expectPunct_bind h hs ht ⟨fun k => ?_, fun {s₁ t₁} h₁ hs₁ ht₁ => ?_⟩
  · exact Agree.get.bind fun _ => ((hstatements.steps k).insideBlock).bind fun _ => Agree.pure _
  · apply get_bind
    rw [S.depth h₁]
    refine (hstatements.insideBlock.run h₁ hs₁ ht₁).bind hs₁ ht₁ fun statements => ?_
    have hpure := UpTo.pure (S := S) (n := n) (m := m) (φ := S.image) (.block (s₁.workspace.depth + 1) statements)
    simpa [image, Expr.renamed] using hpure

/-- The kind of an operand is decided by a token that both runs see, and the operands inside it have fewer tokens. -/
theorem primaryWith (hcp : Consumes p) (hcq : Consumes q) (hp : S.UpTo n m S.image p q) (h : S.Rel s t) (hs : s.remaining ≤ n + 1)
    (ht : t.remaining ≤ m + 1) : S.At s t S.image (Grammar.primaryWith p) (Grammar.primaryWith q) := by
  rcases S.token h with (htoken | ⟨hover, hbars⟩) | haside
  · unfold Grammar.primaryWith
    apply current_bind
    rw [htoken]
    -- the lookahead decides, and it is the same in both runs
    split
    · rename_i value hc
      exact advance_bind h htoken (by simp [hc]) (by simp [hc]) hs ht (UpTo.pure (φ := S.image) (.number value))
    · exact referenceWith hcp hp h hs ht
    · rename_i hc
      exact returnWith hp h htoken hc hs ht
    · rename_i hc
      exact declarationWith hcp hp h htoken hc hs ht
    · rename_i hc
      exact conditionalWith (S.spans h (by rw [hc]; rfl)) hp h htoken hc hs ht
    · rename_i hc
      exact groupingWith hp h htoken hc hs ht
    · rename_i hc
      exact blockWith (S.spans h (by rw [hc]; rfl)) hcp hcq hp h hs ht
    · exact unexpected h _
  · unfold Grammar.primaryWith
    apply current_bind
    rcases Token.bars_cases hbars with hc | hc
    · rw [hover, hc]
      exact unexpected h _
    · rw [hover, hc]
      exact unexpected h _
  · exact .beyond (Beyond.of_consumes (consumes_primaryWith hp.steps) haside.current_ne_end haside.last)

end At

namespace UpTo

/-- Operands correspond as far as their bounds reach. -/
theorem primaryUpTo (k : Nat) : ∀ l, S.UpTo k l S.image (Grammar.primaryUpTo k) (Grammar.primaryUpTo l) := by
  have hfail : ∀ {u : State} (k : Nat), u.current = .endOfInput ∨ u.current.bars = true →
      Grammar.primaryUpTo k u = .error (u.unexpected "an expression") u := by
    intro u k hu
    cases k with
    | zero => rfl
    | succ k =>
      rcases hu.imp_right Token.bars_cases with hu | hu | hu <;> simp [Grammar.primaryUpTo, Grammar.primaryWith, hu]
  induction k with
  | zero =>
    refine fun l => ⟨fun j => Agree.primaryUpTo_self 0 j, fun h hs _ => ?_⟩
    have hend := State.current_of_remaining_eq_zero (Nat.le_zero.mp hs)
    exact .error rfl (hfail l (Or.inl (S.ended h hend))) (S.unexpected _ h) h
  | succ k ih =>
    refine fun l => ⟨fun j => Agree.primaryUpTo_self (k + 1) j, fun {s t} h hs ht => ?_⟩
    cases l with
    | zero =>
      have hover := State.current_of_remaining_eq_zero (Nat.le_zero.mp ht)
      rcases S.token h with (htoken | ⟨_, hbars⟩) | haside
      · exact .error (hfail _ (Or.inl (htoken.symm.trans hover))) rfl (S.unexpected _ h) h
      · exact .error (hfail _ (Or.inr hbars)) rfl (S.unexpected _ h) h
      · exact .beyond (Beyond.of_consumes (consumes_primaryUpTo _) haside.current_ne_end haside.last)
    | succ l => exact At.primaryWith (consumes_primaryUpTo k) (consumes_primaryUpTo l) (ih l) h hs ht

/-- Operands correspond, whatever the bounds. The recursion of each run is unfolded once for every token. -/
theorem primary : S.UpTo n m S.image Grammar.primary Grammar.primary where
  steps := Agree.primary
  run {s t} h _ _ := ((primaryUpTo s.remaining t.remaining).run h (Nat.le_refl _) (Nat.le_refl _)).congr rfl rfl

theorem expression : S.UpTo n m S.image Grammar.expression Grammar.expression := expressionWith primary

end UpTo

/-! ## Constructs -/

/-- The name for expressions outside functions is the same in both runs. -/
theorem globalPrototype_eq (h : S.Rel s t) : t.workspace.globalPrototype = s.workspace.globalPrototype := by
  rw [Workspace.globalPrototype, S.globalName h]
  rfl

namespace At

/-- Expressions outside functions correspond. -/
theorem topLevel (h : S.Rel s t) : S.At s t (Function.renamed S.rename) Grammar.topLevel Grammar.topLevel := by
  refine (UpTo.expression.run h (Nat.le_refl _) (Nat.le_refl _)).bind (Nat.le_refl _) (Nat.le_refl _) fun body =>
    ⟨fun k => Agree.get.bind fun _ => Agree.pure _, fun {s₁ t₁} h₁ _ _ => ?_⟩
  apply get_bind
  rw [globalPrototype_eq h₁]
  exact .pure (φ := Function.renamed S.rename) h₁ { prototype := s₁.workspace.globalPrototype, body }

/-- Functions correspond where both runs see the keyword. -/
theorem function (h : S.Rel s t) (htoken : t.current = s.current) (hc : s.current = .keyword .function) :
    S.At s t (Function.renamed S.rename) Grammar.function Grammar.function := by
  have hspans : S.Spans := S.spans h (by rw [hc]; rfl)
  have hblock : S.UpTo s.remaining t.remaining S.image Grammar.block Grammar.block :=
    ⟨fun k _ hs => AgreeAt.blockWith (Agree.primary k) (Nat.le_succ_of_le hs), fun h hs ht =>
      At.blockWith hspans consumes_primary consumes_primary UpTo.primary h (Nat.le_succ_of_le hs) (Nat.le_succ_of_le ht)⟩
  have hprototype : S.UpTo s.remaining t.remaining id Grammar.prototype Grammar.prototype :=
    (UpTo.identifier _).bind fun name => (UpTo.expectPunct _ _).bind fun _ =>
      (UpTo.commaSeparated (consumes_identifier _) (UpTo.identifier _)).bind fun params => by
        rw [List.map_id]
        exact UpTo.pure (φ := id) (Prototype.mk name params)
  have hbody : ∀ prototype : Prototype, S.UpTo s.remaining t.remaining (Function.renamed S.rename)
      (do let body ← Grammar.block; Production.note (.function prototype); return { prototype, body })
      (do let body ← Grammar.block; Production.note (.function prototype); return { prototype, body }) :=
    fun prototype => hblock.bind fun body => (UpTo.note _ _).bind fun _ =>
      UpTo.pure (φ := Function.renamed S.rename) { prototype, body }
  refine advance_bind h htoken (by simp [hc]) (by simp [hc]) (Nat.le_succ _) (Nat.le_succ _)
    (hprototype.bind fun prototype => (UpTo.skipStatementEnds hspans).bind fun _ => ⟨fun k => ?_, fun {s₁ t₁} h₁ hs₁ ht₁ => ?_⟩)
  · refine Agree.current.bind fun token => ?_
    split
    · exact Agree.unexpected _
    · exact (hbody prototype).steps k
  apply current_bind
  rcases S.token h₁ with (htoken | ⟨hover, hbars⟩) | haside
  · rw [htoken]
    split
    · exact unexpected h₁ _
    · exact (hbody prototype).run h₁ hs₁ ht₁
  · rcases Token.bars_cases hbars with hc | hc
    · rw [hover, hc]
      exact unexpected h₁ _
    · rw [hover, hc]
      exact unexpected h₁ _
  · rw [haside.inert]
    exact .beyond (Beyond.of_consumes (consumes_unexpected _) haside.current_ne_end haside.last)

end At

end Simulation

end Offside

import Offside.Proofs.Image
import Offside.Proofs.Layout.Phrase
import Offside.Proofs.StraightLine.Spelling

/-!
# Unique readability

The text of an expression on one line loses nothing but what its phrase leaves out: expressions with the same text have the same
phrase. The text spells the tokens of the phrase, and no phrase is a beginning of another one, as long as a name is not followed by
what would make it a call. What is in parentheses begins with a phrase, and the token behind that phrase tells the kinds apart.
-/

namespace Offside

namespace Phrase

/-- A phrase that is spelled with numbers, names, callees and operators of the language. No variable is spelled like the phrase for the
value where there is none. -/
inductive Spelled : Phrase → Prop where
  | none : Spelled .none
  | number {value : Binary64} : value.IsPlain → Spelled (.number value)
  | var {name : String} : isName name = true → name ≠ "None" → Spelled (.var name)
  | operation {left right : Phrase} {op : Char} : op ∈ arithmeticSymbols → Spelled left → Spelled right →
      Spelled (.operation left op right)
  | assign {target value : Phrase} : Spelled target → Spelled value → Spelled (.assign target value)
  | ret {value : Phrase} : Spelled value → Spelled (.ret value)
  | call {callee : String} {arguments : List Phrase} : isCallee callee = true → (∀ p ∈ arguments, Spelled p) →
      Spelled (.call callee arguments)
  | cond {test yes no : Phrase} : Spelled test → Spelled yes → Spelled no → Spelled (.cond test yes no)
  | sequence {first second : Phrase} {rest : List Phrase} : Spelled first → Spelled second → (∀ p ∈ rest, Spelled p) →
      Spelled (.sequence first second rest)

/-- Assignments one after another are spelled if each of them is. -/
theorem Spelled.assigned {ps : List Phrase} (h : ∀ p ∈ ps, p.Spelled) : (Phrase.assigned ps).Spelled := by
  induction ps with
  | nil => exact .none
  | cons p ps ih =>
    have hp := h p List.mem_cons_self
    cases ps with
    | nil => exact hp
    | cons q qs => exact .assign hp (ih fun o ho => h o (List.mem_cons_of_mem _ ho))

/-- Statements on one line are spelled if each of them is. -/
theorem Spelled.ofStatements {ps : List Phrase} (h : ∀ p ∈ ps, p.Spelled) : (Phrase.ofStatements ps).Spelled := by
  unfold Phrase.ofStatements
  split
  · exact .none
  · exact h _ List.mem_cons_self
  · exact .sequence (h _ (by simp)) (h _ (by simp)) fun p hp => h p (by simp [hp])

/-! ## Tokens -/

/-- The tokens behind the statements of a block: the last of them is taken. -/
def lastIndex : List Token := [.punct ')', .punct '[', .punct '-', .number ⟨0x3FF0000000000000⟩, .punct ']']

mutual

/-- The tokens of a phrase. -/
def tokens : Phrase → List Token
  | none => [.identifier "None"]
  | number value => [.number value]
  | var name => [.identifier name]
  | operation left op right => .punct '(' :: (left.tokens ++ .punct op :: (right.tokens ++ [.punct ')']))
  | assign target value => .punct '(' :: (target.tokens ++ .punct ':' :: .punct '=' :: (value.tokens ++ [.punct ')']))
  | ret value => .keyword .return_ :: value.tokens
  | call callee arguments => calleeTokens callee ++ .punct '(' :: (Token.joined ',' (tokensAll arguments) ++ [.punct ')'])
  | cond test yes no =>
    .punct '(' :: (yes.tokens ++ .keyword .if_ :: (test.tokens ++ .keyword .else_ :: (no.tokens ++ [.punct ')'])))
  | sequence first second rest => .punct '(' :: (Token.joined ',' (first.tokens :: second.tokens :: tokensAll rest) ++ lastIndex)

/-- The tokens of several phrases. -/
def tokensAll : List Phrase → List (List Token)
  | [] => []
  | p :: ps => p.tokens :: tokensAll ps

end

theorem tokensAll_eq_map (ps : List Phrase) : tokensAll ps = ps.map tokens := by
  induction ps with
  | nil => rfl
  | cons p ps ih => rw [tokensAll, ih, List.map_cons]

/-- The end of a block on one line spells its tokens. -/
theorem spells_lastIndex : Spells (endsWord · = true) ")[-1]" lastIndex := by
  intro rest us _ hrest
  have hone : Lexeme.first '1' ([] ++ ']' :: rest) = ⟨['1'], .token (.number ⟨0x3FF0000000000000⟩)⟩ := by
    have hstop : ([] ++ ']' :: rest).takeWhile Lexeme.continuesNumber = [] := rfl
    have hvalue : Lexeme.ofNumber ['1'] = ⟨['1'], .token (.number ⟨0x3FF0000000000000⟩)⟩ := by decide +kernel
    rw [Lexeme.first, hstop, hvalue]
    rfl
  have hend : Scans (']' :: rest) (.token (.punct ']') :: us) := .punct (by decide) (by simp) hrest
  have htext : ")[-1]".toList = [')', '[', '-', '1', ']'] := by decide
  have hnumber := Scans.token hone rfl hend
  rw [htext]
  exact .punct (by decide) (by simp) (.punct (by decide) (by simp) (.punct (by decide) (by simp) hnumber))

/-- The mark of an assignment spells its two tokens, whatever follows. -/
theorem spells_assigns : Spells (fun _ => True) " := " [.punct ':', .punct '='] := by
  have hcolon : Spells (fun _ => True) ":" [.punct ':'] := .mark (by decide) (by decide) (by decide)
  have hequals : Spells (fun _ => True) "= " [.punct '='] := .mark_blank (by decide) (by decide)
  exact (hcolon.and_then hequals).after_blank

/-- The text of a phrase holds its tokens. -/
theorem Spelled.spells {p : Phrase} (h : p.Spelled) : Spells (endsWord · = true) p.text p.tokens := by
  induction h with
  | none => exact .word (by decide)
  | number hvalue => exact .literal hvalue
  | var hname _ => exact .word hname
  | @operation left right op hop _ _ hl hr =>
    have htext : (Phrase.operation left op right).text =
        "(" ++ (left.text ++ ((" " ++ op.toString ++ " ") ++ (right.text ++ ")"))) := by
      simp only [text, String.append_assoc]
    rw [htext]
    exact Expr.spells_enclosed hl (Expr.spells_operator hop) (by simp) hr
  | @assign target value _ _ ht hv =>
    have htext : (Phrase.assign target value).text = "(" ++ (target.text ++ (" := " ++ (value.text ++ ")"))) := by
      simp only [text, String.append_assoc]
    rw [htext]
    exact Expr.spells_enclosed ht spells_assigns (by decide) hv
  | ret _ hv => exact (Spells.keyword .return_).and_then hv
  | @call callee arguments hcallee _ ih =>
    have htext : (Phrase.call callee arguments).text = callee ++ ("(" ++ (", ".intercalate (arguments.map text) ++ ")")) := by
      simp only [text, textAll_eq_map, String.append_assoc]
    rw [htext, tokens, tokensAll_eq_map]
    exact Expr.spells_call hcallee ih
  | @cond test yes no _ _ _ ht hy hn =>
    have htext : (Phrase.cond test yes no).text =
        "(" ++ (yes.text ++ ((" if " ++ (test.text ++ " else ")) ++ (no.text ++ ")"))) := by
      simp only [text, String.append_assoc]
    have hif : Spells (fun _ => True) " if " [.keyword .if_] := (Spells.keyword .if_).after_blank
    have helse : Spells (fun _ => True) " else " [.keyword .else_] := (Spells.keyword .else_).after_blank
    have htest := hif.and_then (ht.and_end helse (c := ' ') (by decide) (by decide))
    have hcond := Expr.spells_enclosed hy htest (by simp) hn
    rw [htext]
    simpa [tokens] using hcond
  | @sequence first second rest _ _ _ hf hs ih =>
    have htext : (Phrase.sequence first second rest).text =
        "(" ++ (", ".intercalate ((first :: second :: rest).map text) ++ ")[-1]") := by
      simp only [text, textAll_eq_map, List.map_cons, String.append_assoc]
    have hall : ∀ p ∈ first :: second :: rest, Spells (endsWord · = true) p.text p.tokens := by
      simpa using ⟨hf, hs, ih⟩
    rw [htext, tokens, tokensAll_eq_map, ← List.map_cons, ← List.map_cons]
    exact Expr.spells_open.and_then ((Expr.spells_listed hall).and_end spells_lastIndex (c := ')') (by decide) (by decide))

/-! ## No phrase is the beginning of another -/

/-- Tokens that make no call of a name in front of them. -/
def Stops (ts : List Token) : Prop := ∀ t ∈ ts.head?, t ≠ .punct '(' ∧ t ≠ .punct '.'

/-- The tokens of further phrases, with a comma in front of each. -/
def following (ps : List Phrase) : List Token := (ps.map tokens).flatMap (.punct ',' :: ·)

theorem following_cons (p : Phrase) (ps : List Phrase) : following (p :: ps) = .punct ',' :: (p.tokens ++ following ps) := rfl

/-- `Opens p first link`: in parentheses `p` begins with `first` and goes on with `link`, up to the end. -/
inductive Opens : Phrase → Phrase → List Token → Prop where
  | operation {left right : Phrase} {op : Char} : op ∈ arithmeticSymbols → right.Spelled →
      Opens (.operation left op right) left (.punct op :: (right.tokens ++ [.punct ')']))
  | assign {target value : Phrase} : value.Spelled →
      Opens (.assign target value) target (.punct ':' :: .punct '=' :: (value.tokens ++ [.punct ')']))
  | cond {test yes no : Phrase} : test.Spelled → no.Spelled →
      Opens (.cond test yes no) yes (.keyword .if_ :: (test.tokens ++ .keyword .else_ :: (no.tokens ++ [.punct ')'])))
  | sequence {first second : Phrase} {rest : List Phrase} : (∀ p ∈ second :: rest, p.Spelled) →
      Opens (.sequence first second rest) first (following (second :: rest) ++ lastIndex)

/-- No arithmetic operator can be taken for what makes a call or goes on with a list. -/
theorem arithmetic_stops : ∀ op ∈ arithmeticSymbols, op ≠ '(' ∧ op ≠ '.' ∧ op ≠ ':' ∧ op ≠ ',' := by
  decide

/-- What goes on behind the first phrase in parentheses makes no call of it. -/
theorem Opens.stops {p first : Phrase} {link : List Token} (h : Opens p first link) (ts : List Token) : Stops (link ++ ts) := by
  cases h with
  | operation hop _ =>
    obtain ⟨hopen, hpoint, _⟩ := arithmetic_stops _ hop
    rintro t ⟨⟩
    simp [hopen, hpoint]
  | assign | cond | sequence =>
    rintro t ⟨⟩
    simp

/-- `Begins us p ts`: the tokens `ts`, which are those of `p` and `us` behind them, by the first of them. -/
inductive Begins (us : List Token) : Phrase → List Token → Prop where
  | none : Begins us .none (.identifier "None" :: us)
  | number (value : Binary64) : Begins us (.number value) (.number value :: us)
  | var {name : String} : name ≠ "None" → Begins us (.var name) (.identifier name :: us)
  | ret {value : Phrase} {ts : List Token} : value.Spelled → value.tokens ++ us = ts → Begins us (.ret value) (.keyword .return_ :: ts)
  | call {callee name : String} {arguments : List Phrase} {t : Token} {ts : List Token} : isCallee callee = true →
      (∀ p ∈ arguments, p.Spelled) → t = .punct '(' ∨ t = .punct '.' →
      calleeTokens callee ++ .punct '(' :: (Token.joined ',' (arguments.map tokens) ++ .punct ')' :: us) = .identifier name :: t :: ts →
      Begins us (.call callee arguments) (.identifier name :: t :: ts)
  | opened {p first : Phrase} {link ts : List Token} : Opens p first link → first.Spelled → first.tokens ++ (link ++ us) = ts →
      Begins us p (.punct '(' :: ts)

/-- What is in parentheses begins with a phrase, and the link stands behind it. -/
theorem Opens.tokens_append {p first : Phrase} {link : List Token} (h : Opens p first link) (ts : List Token) :
    p.tokens ++ ts = .punct '(' :: (first.tokens ++ (link ++ ts)) := by
  cases h <;> simp [tokens, following, Token.joined, tokensAll_eq_map]

/-- How the tokens of a phrase begin. -/
theorem Spelled.begins {p : Phrase} (h : p.Spelled) {us ts : List Token} (heq : p.tokens ++ us = ts) : Begins us p ts := by
  have hopened : ∀ {first : Phrase} {link : List Token}, Opens p first link → first.Spelled → Begins us p ts := by
    intro first link hopens hfirst
    rw [← heq, hopens.tokens_append]
    exact .opened hopens hfirst rfl
  subst heq
  cases h with
  | none => exact .none
  | number => exact .number _
  | var _ hne => exact .var hne
  | operation hop hl hr => exact hopened (.operation hop hr) hl
  | assign ht hv => exact hopened (.assign hv) ht
  | ret hv => exact .ret hv rfl
  | @call callee arguments hcallee harguments =>
    have htokens : (Phrase.call callee arguments).tokens ++ us =
        calleeTokens callee ++ .punct '(' :: (Token.joined ',' (arguments.map tokens) ++ .punct ')' :: us) := by
      simp [tokens, tokensAll_eq_map]
    obtain ⟨name, t, ts, hcall, ht⟩ := calleeTokens_append hcallee (Token.joined ',' (arguments.map tokens) ++ .punct ')' :: us)
    rw [htokens, hcall]
    exact .call hcallee harguments ht hcall
  | cond ht hy hn => exact hopened (.cond ht hn) hy
  | sequence hf hs hrest => exact hopened (.sequence (List.forall_mem_cons.mpr ⟨hs, hrest⟩)) hf

/-- No phrase begins with the parenthesis that closes one. -/
theorem Spelled.tokens_ne_close {p : Phrase} (h : p.Spelled) (us ts : List Token) : p.tokens ++ us ≠ .punct ')' :: ts := by
  intro heq
  cases h.begins heq

/-- `Unambiguous p`: where the tokens of `p` stand, and none behind them that make a call of it, no other phrase can be read. -/
def Unambiguous (p : Phrase) : Prop :=
  ∀ {q : Phrase} {us us' : List Token}, q.Spelled → Stops us → Stops us' → p.tokens ++ us = q.tokens ++ us' → p = q ∧ us = us'

section

variable {p q : Phrase} {ps qs : List Phrase} {us us' : List Token}

/-- Neither a further phrase nor the end of the list makes a call of the phrase in front. -/
theorem stops_following (ps : List Phrase) (ts : List Token) : Stops (following ps ++ .punct ')' :: ts) := by
  cases ps <;>
  · rintro t ⟨⟩
    simp

/-- The last phrase in parentheses. -/
theorem Unambiguous.closed (hp : p.Unambiguous) (hq : q.Spelled)
    (h : p.tokens ++ [.punct ')'] ++ us = q.tokens ++ [.punct ')'] ++ us') : p = q ∧ us = us' := by
  rw [List.append_assoc, List.append_assoc] at h
  obtain ⟨hpq, hus⟩ := hp hq (stops_following [] us) (stops_following [] us') h
  exact ⟨hpq, List.tail_eq_of_cons_eq hus⟩

/-- Phrases with commas in front of them are told apart up to the closing parenthesis. -/
theorem following_inj (hps : ∀ p ∈ ps, p.Unambiguous) (hqs : ∀ q ∈ qs, q.Spelled)
    (h : following ps ++ .punct ')' :: us = following qs ++ .punct ')' :: us') : ps = qs ∧ us = us' := by
  induction ps generalizing qs with
  | nil =>
    cases qs with
    | nil => simpa [following] using h
    | cons q qs => cases h
  | cons p ps ih =>
    cases qs with
    | nil => cases h
    | cons q qs =>
      rw [List.forall_mem_cons] at hps hqs
      have htokens : p.tokens ++ (following ps ++ .punct ')' :: us) = q.tokens ++ (following qs ++ .punct ')' :: us') := by
        simpa [following_cons] using h
      obtain ⟨hpq, hrest⟩ := hps.1 hqs.1 (stops_following ps us) (stops_following qs us') htokens
      obtain ⟨hpsqs, hus⟩ := ih hps.2 hqs.2 hrest
      exact ⟨by rw [hpq, hpsqs], hus⟩

/-- Phrases with commas between them are the first phrase and the following ones. -/
theorem joined_tokens (p : Phrase) (ps : List Phrase) (ts : List Token) :
    Token.joined ',' ((p :: ps).map tokens) ++ ts = p.tokens ++ (following ps ++ ts) := by
  rw [List.map_cons, Token.joined, List.append_assoc, following]

/-- Arguments are told apart up to the closing parenthesis. -/
theorem joined_inj (hps : ∀ p ∈ ps, p.Spelled) (hunambiguous : ∀ p ∈ ps, p.Unambiguous) (hqs : ∀ q ∈ qs, q.Spelled)
    (h : Token.joined ',' (ps.map tokens) ++ .punct ')' :: us = Token.joined ',' (qs.map tokens) ++ .punct ')' :: us') :
    ps = qs ∧ us = us' := by
  cases ps with
  | nil =>
    cases qs with
    | nil => simpa [Token.joined] using h
    | cons q qs =>
      rw [joined_tokens] at h
      exact absurd h.symm ((hqs q List.mem_cons_self).tokens_ne_close _ _)
  | cons p ps =>
    rw [joined_tokens] at h
    cases qs with
    | nil => exact absurd h ((hps p List.mem_cons_self).tokens_ne_close _ _)
    | cons q qs =>
      rw [List.forall_mem_cons] at hunambiguous hqs
      rw [joined_tokens] at h
      obtain ⟨hpq, hrest⟩ := hunambiguous.1 hqs.1 (stops_following ps us) (stops_following qs us') h
      obtain ⟨hpsqs, hus⟩ := following_inj hunambiguous.2 hqs.2 hrest
      exact ⟨by rw [hpq, hpsqs], hus⟩

/-- What is in parentheses begins with the same phrase as anything else that can be read there. -/
theorem Opens.inv {first : Phrase} {link : List Token} (h : Opens p first link) (hfirst : first.Unambiguous) (hq : q.Spelled)
    (heq : p.tokens ++ us = q.tokens ++ us') : ∃ link', Opens q first link' ∧ link ++ us = link' ++ us' := by
  rw [h.tokens_append] at heq
  cases hq.begins heq.symm with
  | opened hopens hspelled hrest =>
    obtain ⟨rfl, hlink⟩ := hfirst hspelled (h.stops us) (hopens.stops us') hrest.symm
    exact ⟨_, hopens, hlink⟩

end

/-- The tokens of a phrase can be read in one way only. -/
theorem Spelled.unambiguous {p : Phrase} (h : p.Spelled) : p.Unambiguous := by
  have hstops : ∀ {t : Token} {ts : List Token}, Stops (t :: ts) → ¬(t = .punct '(' ∨ t = .punct '.') := by
    intro t ts hts ht
    obtain ⟨hopen, hpoint⟩ := hts t rfl
    exact ht.elim hopen hpoint
  induction h with
  | none =>
    intro q us us' hq hus _ heq
    cases hq.begins heq.symm with
    | none => exact ⟨rfl, rfl⟩
    | var hne => exact absurd rfl hne
    | call _ _ ht _ => exact absurd ht (hstops hus)
  | number =>
    intro q us us' hq _ _ heq
    cases hq.begins heq.symm
    exact ⟨rfl, rfl⟩
  | var _ hne =>
    intro q us us' hq hus _ heq
    cases hq.begins heq.symm with
    | none => exact absurd rfl hne
    | var => exact ⟨rfl, rfl⟩
    | call _ _ ht _ => exact absurd ht (hstops hus)
  -- in parentheses the phrases begin alike, and the token behind the first one tells the kinds apart
  | operation hop _ hright hl hr =>
    intro q us us' hq _ _ heq
    obtain ⟨link, hopens, hlink⟩ := (Opens.operation hop hright).inv hl hq heq
    obtain ⟨_, _, hcolon, hcomma⟩ := arithmetic_stops _ hop
    cases hopens with
    | operation _ hright' =>
      rw [List.cons_append, List.cons_append, List.cons.injEq, Token.punct.injEq] at hlink
      obtain ⟨rfl, hrest⟩ := hlink
      obtain ⟨rfl, hus⟩ := hr.closed hright' hrest
      exact ⟨rfl, hus⟩
    | assign | cond | sequence => simp [following_cons, hcolon, hcomma] at hlink
  | assign _ hvalue ht hv =>
    intro q us us' hq _ _ heq
    obtain ⟨link, hopens, hlink⟩ := (Opens.assign hvalue).inv ht hq heq
    cases hopens with
    | operation hop _ => simp [(arithmetic_stops _ hop).2.2.1.symm] at hlink
    | assign hvalue' =>
      simp only [List.cons_append, List.cons.injEq, true_and] at hlink
      obtain ⟨rfl, hus⟩ := hv.closed hvalue' hlink
      exact ⟨rfl, hus⟩
    | cond | sequence => simp [following_cons] at hlink
  | ret _ ih =>
    intro q us us' hq hus hus' heq
    cases hq.begins heq.symm with
    | ret hvalue hrest =>
      obtain ⟨rfl, hus⟩ := ih hvalue hus hus' hrest.symm
      exact ⟨rfl, hus⟩
  | call hcallee harguments ih =>
    intro q us us' hq _ hus' heq
    -- both begin with a name; what is behind it makes a call of it, so `q` cannot end there
    generalize hts : q.tokens ++ us' = ts at heq
    cases (Spelled.call hcallee harguments).begins heq with
    | opened hopens => cases hopens
    | call _ _ ht hcall =>
      cases hq.begins hts with
      | none | var => exact absurd ht (hstops hus')
      | call hcallee' harguments' _ hcall' =>
        obtain ⟨rfl, hjoined⟩ := calleeTokens_append_inj hcallee hcallee' (hcall.trans hcall'.symm)
        obtain ⟨rfl, hus⟩ := joined_inj harguments ih harguments' hjoined
        exact ⟨rfl, hus⟩
  | cond htest _ hno ht hy hn =>
    intro q us us' hq _ _ heq
    obtain ⟨link, hopens, hlink⟩ := (Opens.cond htest hno).inv hy hq heq
    cases hopens with
    | operation | assign | sequence => simp [following_cons] at hlink
    | cond htest' hno' =>
      simp only [List.cons_append, List.cons.injEq, true_and, List.append_assoc] at hlink
      have helse : ∀ ts, Stops (.keyword .else_ :: ts) := by
        rintro ts t ⟨⟩
        simp
      obtain ⟨rfl, hrest⟩ := ht htest' (helse _) (helse _) hlink
      obtain ⟨rfl, hus⟩ := hn.closed hno' (by simpa using hrest)
      exact ⟨rfl, hus⟩
  | sequence _ hsecond hrest hf hs ih =>
    intro q us us' hq _ _ heq
    obtain ⟨link, hopens, hlink⟩ := (Opens.sequence (List.forall_mem_cons.mpr ⟨hsecond, hrest⟩)).inv hf hq heq
    cases hopens with
    | operation hop _ => simp [following_cons, (arithmetic_stops _ hop).2.2.2.symm] at hlink
    | assign | cond => simp [following_cons] at hlink
    | sequence hspelled =>
      rw [List.append_assoc, List.append_assoc] at hlink
      obtain ⟨hall, hus⟩ := following_inj (List.forall_mem_cons.mpr ⟨hs, ih⟩) hspelled hlink
      cases hall
      exact ⟨rfl, by simpa using hus⟩

/-- The text of a phrase can be read in one way only. -/
theorem Spelled.text_inj {p q : Phrase} (hp : p.Spelled) (hq : q.Spelled) (h : p.text = q.text) : p = q := by
  have hscan : ∀ {p : Phrase}, p.Spelled → (TokenStream.ofSource p.text).items.map (·.lexed) = p.tokens.map .token := by
    intro p hp
    refine Scans.ofSource ?_
    simpa using hp.spells [] [] rfl .nil
  have htokens : p.tokens = q.tokens := by
    have hlexed : p.tokens.map Lexed.token = q.tokens.map Lexed.token := by rw [← hscan hp, ← hscan hq, h]
    exact (List.map_inj_right fun _ _ => Lexed.token.inj).mp hlexed
  have hstops : Stops [] := by
    intro t ht
    cases ht
  exact (hp.unambiguous hq hstops hstops (by rw [htokens])).1

end Phrase

namespace Expr

mutual

/-- The names of the variables in an expression. -/
def varNames : Expr → List String
  | number _ => []
  | var name => [name]
  | binary left _ right _ => left.varNames ++ right.varNames
  | ret value => value.varNames
  | call _ arguments => varNamesAll arguments
  | cond test yes none => test.varNames ++ yes.varNames
  | cond test yes (some no) => test.varNames ++ yes.varNames ++ no.varNames
  | block _ statements => varNamesAll statements

/-- The names of the variables in several expressions. -/
def varNamesAll : List Expr → List String
  | [] => []
  | e :: es => e.varNames ++ varNamesAll es

end

/-- The variables of several expressions are those of each of them. -/
theorem mem_varNamesAll {name : String} {es : List Expr} : name ∈ varNamesAll es ↔ ∃ e ∈ es, name ∈ e.varNames := by
  induction es with
  | nil => simp [varNamesAll]
  | cons e es ih => simp [varNamesAll, ih]

/-- Every operator but the assignment is arithmetic. -/
theorem arithmetic_of_operator {op : Char} (h : op ∈ Grammar.operatorSymbols) (hne : op ≠ '=') : op ∈ arithmeticSymbols := by
  have hall : ∀ c ∈ Grammar.operatorSymbols, c ≠ '=' → c ∈ arithmeticSymbols := by decide
  exact hall op h hne

/-- A well-formed expression is spelled with what the language has. -/
theorem Formed.spelled {d : Nat} {e : Expr} (h : e.Formed (isName · = true) (isCallee · = true) d) (hnone : "None" ∉ e.varNames) :
    ∀ p ∈ e.phrases, p.Spelled := by
  have hall : ∀ es : List Expr, (∀ e ∈ es, "None" ∉ e.varNames → ∀ p ∈ e.phrases, p.Spelled) → "None" ∉ varNamesAll es →
      ∀ p ∈ normalAll es, p.Spelled := by
    intro es h hnone
    rw [normalAll_eq_map, List.forall_mem_map]
    exact fun e he => .assigned (h e he fun hmem => hnone (mem_varNamesAll.mpr ⟨e, he, hmem⟩))
  induction h with
  | number hvalue => simpa [phrases] using .number hvalue
  | @var d name hname =>
    have hne : name ≠ "None" := by simpa [varNames, eq_comm] using hnone
    simpa [phrases] using .var hname hne
  | @binary d left right op declares hop _ _ _ hl hr =>
    simp only [varNames, List.mem_append, not_or] at hnone
    rw [phrases]
    split
    case isTrue => exact List.forall_mem_append.mpr ⟨hl hnone.1, hr hnone.2⟩
    case isFalse hne =>
      rw [List.forall_mem_singleton]
      exact .operation (arithmetic_of_operator hop hne) (.assigned (hl hnone.1)) (.assigned (hr hnone.2))
  | ret _ ih =>
    rw [phrases, List.forall_mem_singleton]
    exact .ret (.assigned (ih hnone))
  | call hcallee _ ih =>
    rw [phrases, List.forall_mem_singleton]
    exact .call hcallee (hall _ ih hnone)
  | @cond d test yes no _ _ _ htest hyes hno =>
    cases no with
    | none =>
      simp only [varNames, List.mem_append, not_or] at hnone
      rw [phrases, List.forall_mem_singleton]
      exact .cond (.assigned (htest hnone.1)) (.assigned (hyes hnone.2)) .none
    | some no =>
      simp only [varNames, List.mem_append, not_or] at hnone
      rw [phrases, List.forall_mem_singleton]
      exact .cond (.assigned (htest hnone.1.1)) (.assigned (hyes hnone.1.2)) (.assigned (hno no rfl hnone.2))
  | block _ ih =>
    rw [phrases, List.forall_mem_singleton]
    exact .ofStatements (hall _ ih hnone)

end Expr

namespace Workspace

/-- Under no external names the body of everything that is stored is well-formed. -/
theorem wellFormed_of_stored {options : Options} {calls : List Call} {f : Function}
    (h : f ∈ ((new .empty options).after calls).globals ++ ((new .empty options).after calls).functions) : f.body.WellFormed := by
  have hformed := ((Filled.new options).after calls).formed naming_empty
  rcases List.mem_append.mp h with h | h
  · exact (hformed.globals f h).2
  · exact (hformed.functions f h).body

/-- On one line stored expressions lose nothing but what their phrases leave out: as long as no variable is called `None`, two of them
have the same text exactly if they have the same phrase. -/
theorem stored_inline_eq_iff {options options' : Options} {calls calls' : List Call} {f g : Function}
    (hf : f ∈ ((new .empty options).after calls).globals ++ ((new .empty options).after calls).functions)
    (hg : g ∈ ((new .empty options').after calls').globals ++ ((new .empty options').after calls').functions)
    (hfnone : "None" ∉ f.body.varNames) (hgnone : "None" ∉ g.body.varNames) :
    f.body.inline = g.body.inline ↔ f.body.normal = g.body.normal := by
  have hfspelled : f.body.normal.Spelled := .assigned ((wellFormed_of_stored hf).spelled hfnone)
  have hgspelled : g.body.normal.Spelled := .assigned ((wellFormed_of_stored hg).spelled hgnone)
  rw [Expr.inline_eq_text, Expr.inline_eq_text]
  exact ⟨hfspelled.text_inj hgspelled, congrArg Phrase.text⟩

/-- A declaration whose value is in a block of its own, and an assignment to another one in parentheses. -/
theorem stored_inline_eq_iff_collapsed :
    let w := (new .empty {}).after [.read "var x = y = { if (t) { } }"]
    let w' := (new .empty {}).after [.read "x = (y = if (t) { } else { })"]
    w.globals.length = 1 ∧ w'.globals.length = 1 ∧
      ∀ f ∈ w.globals, ∀ g ∈ w'.globals, f.body.inline = "(x := (y := (None if t else None)))" ∧ f.body.normal = g.body.normal := by
  intro w w'
  have hw : ∀ f ∈ w.globals, "None" ∉ f.body.varNames ∧ f.body.inline = "(x := (y := (None if t else None)))" := by
    decide +kernel
  have hw' : ∀ g ∈ w'.globals, "None" ∉ g.body.varNames ∧ g.body.inline = "(x := (y := (None if t else None)))" := by
    decide +kernel
  refine ⟨by decide +kernel, by decide +kernel, fun f hf g hg => ⟨(hw f hf).2, ?_⟩⟩
  have htext : f.body.inline = g.body.inline := by rw [(hw f hf).2, (hw' g hg).2]
  exact (stored_inline_eq_iff (List.mem_append_left _ hf) (List.mem_append_left _ hg) (hw f hf).1 (hw' g hg).1).mp htext

/-- A variable called `None` is written like a block without statements. -/
example : (Expr.var "None").inline = (Expr.block 1 []).inline := rfl

end Workspace

end Offside

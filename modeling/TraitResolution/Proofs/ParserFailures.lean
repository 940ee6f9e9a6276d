import TraitResolution.Proofs.ParserSteps

/-!
# Where the parser fails

What may come next in a type expression depends on little: whether a type, its arguments or what
follows a type is expected, and in how many brackets. `Expecting` keeps track of that token by
token, without building a type. The parser follows it: as long as it returns, it has read tokens
that were expected, and if it fails, it does so at the first token that was not.

## Implementation notes

The parser decides by one token whether there are arguments, and whether there are more of them. If
it goes on without them, fewer tokens are expected than before (`args` becomes `after`, and `after`
becomes `close`), but none is ruled out by this that is to be read next.
-/

namespace TraitResolution.TypeExpr

/-- What is expected next, in how many open brackets. -/
inductive Expecting where
  | type (depth : Nat)
  /-- The arguments of a name, or what follows a type. -/
  | args (depth : Nat)
  /-- What follows a type. -/
  | after (depth : Nat)
  /-- The bracket that leads out to this depth. -/
  | close (depth : Nat)
  | nothing

namespace Expecting

/-- What is expected after a bracket that closes. -/
def closing (d : Nat) (k : TokenKind) : Option Expecting :=
  if k = .symbol '>' then some (after d) else none

/-- What is expected after a token that follows a type. -/
def following : Nat → TokenKind → Option Expecting
  | 0, k => if k = .eof then some nothing else none
  | d + 1, k => if k = .symbol ',' then some (type (d + 1)) else closing d k

/-- What is expected after a token, if the token was expected. -/
def step : Expecting → TokenKind → Option Expecting
  | type d, .name _ => some (args d)
  | type _, _ => none
  | args d, k => if k = .symbol '<' then some (type (d + 1)) else following d k
  | after d, k => following d k
  | close d, k => closing d k
  | nothing, _ => none

/-- What is expected after some tokens, if they were expected one after the other. -/
def run (q : Expecting) (ks : List TokenKind) : Option Expecting :=
  ks.foldlM step q

/-- The first token that was not expected. -/
def offender (q : Expecting) : List Token → Option Token
  | [] => none
  | t :: ts =>
    match q.step t.kind with
    | some r => offender r ts
    | none => some t

variable {q r : Expecting} {k : TokenKind} {ks ls : List TokenKind} {t : Token} {ts : List Token}
  {d : Nat}

theorem run_cons (h : q.step k = some r) : q.run (k :: ks) = r.run ks := by
  simp [run, h]

theorem run_cons_eq_some :
    q.run (k :: ks) = some r ↔ ∃ next, q.step k = some next ∧ next.run ks = some r := by
  simp [run, Option.bind_eq_some_iff]

theorem run_append : q.run (ks ++ ls) = (q.run ks).bind fun r => r.run ls :=
  List.foldlM_append

theorem step_args (h : k ≠ .symbol '<') : (args d).step k = (after d).step k := by
  rw [step, if_neg h, step]

theorem step_after (h : k ≠ .symbol ',') : (after (d + 1)).step k = (close d).step k := by
  rw [step, following, if_neg h, step]

/-- What is not allowed is never expected, and neither are question marks. -/
theorem step_eq_none (hk : k = .nul ∨ k = .stray ∨ k = .symbol '?') (q : Expecting) :
    q.step k = none := by
  rcases hk with rfl | rfl | rfl <;> rcases q with _ | ⟨_ | _⟩ | ⟨_ | _⟩ | _ | _ <;>
    simp [step, following, closing]

theorem offender_cons_some (h : q.step t.kind = some r) : q.offender (t :: ts) = r.offender ts := by
  rw [offender, h]

theorem offender_cons_none (h : q.step t.kind = none) : q.offender (t :: ts) = some t := by
  rw [offender, h]

/-- The tokens before the first unexpected one were expected. -/
theorem exists_of_offender (h : q.offender ts = some t) :
    ∃ before after r, ts = before ++ t :: after ∧ q.run (before.map (·.kind)) = some r ∧
      r.step t.kind = none := by
  induction ts generalizing q with
  | nil => cases h
  | cons t' ts ih =>
      cases hstep : q.step t'.kind with
      | none =>
          rw [offender_cons_none hstep] at h
          obtain rfl := Option.some.inj h
          exact ⟨[], ts, q, rfl, rfl, hstep⟩
      | some next =>
          rw [offender_cons_some hstep] at h
          obtain ⟨before, after, r, rfl, hrun, hr⟩ := ih h
          exact ⟨t' :: before, after, r, rfl, (run_cons hstep).trans hrun, hr⟩

end Expecting

/-- What was found where a problem was noticed. -/
def Problem.found? : Problem → Option TokenKind
  | nul => some .nul
  | stray => some .stray
  | expectedName found | expectedSymbol _ found | expectedFor found | unexpected found => some found
  | paramWithArgs _ | varNotAllowed _ => none

/-- The failure is about the token. -/
structure Failure.About (e : Failure) (t : Token) : Prop where
  column : e.column = t.column
  found : e.problem.found? = some t.kind
  nul : e.problem = .nul ↔ t.kind = .nul
  stray : e.problem = .stray ↔ t.kind = .stray

namespace Parser

open Expecting

variable {α β : Type} {s : ParserState} {p : Parser α} {f : α → Parser β} {q r u : Expecting}
  {k n d : Nat} {t : Token} {ts : List Token}

/-- The token to be read next is allowed, and no token asks for an inference variable. -/
structure Ready (s : ParserState) : Prop where
  ended : Ended s.tokens
  allowed : s.kinds.head? ≠ some .nul ∧ s.kinds.head? ≠ some .stray
  noneAsked : ∀ t ∈ s.tokens, t.kind ≠ .symbol '?'

/-- From `s`, where `q` is expected, the parser reads `k` tokens or more up to a place where `r` is
expected, or it fails at the first token that is not expected. -/
def Follows (k : Nat) (p : Parser α) (q r : Expecting) (s : ParserState) : Prop :=
  (∃ a s', p s = .ok (a, s') ∧ Ready s' ∧ s'.tokens.length + k ≤ s.tokens.length ∧
    q.offender s.tokens = r.offender s'.tokens) ∨
  ∃ e t, p s = .error e ∧ q.offender s.tokens = some t ∧ e.About t

theorem follows_pure (hs : Ready s) (a : α) : Follows 0 (pure a : Parser α) q q s :=
  Or.inl ⟨a, s, rfl, hs, Nat.le_refl _, rfl⟩

theorem Follows.bind (hp : Follows k p q r s)
    (hf : ∀ a s', Ready s' → s'.tokens.length + k ≤ s.tokens.length → Follows 0 (f a) r u s') :
    Follows k (p >>= f) q u s := by
  rcases hp with ⟨a, s', hrun, hs', hlen, hoffender⟩ | ⟨e, t, hrun, hoffender, habout⟩
  · have hbind : (p >>= f) s = f a s' := by
      change (p s >>= fun x => f x.1 x.2) = _
      rw [hrun]
      rfl
    rw [Follows, hbind, hoffender]
    rcases hf a s' hs' hlen with ⟨b, s'', hrun', hs'', hlen', hoffender'⟩ | herror
    · exact Or.inl ⟨b, s'', hrun', hs'', by omega, hoffender'⟩
    · exact Or.inr herror
  · have hbind : (p >>= f) s = .error e := by
      change (p s >>= fun x => f x.1 x.2) = _
      rw [hrun]
      rfl
    exact Or.inr ⟨e, t, hbind, hoffender, habout⟩

theorem Follows.weaken (h : Follows k p q r s) : Follows 0 p q r s := by
  rcases h with ⟨a, s', hrun, hs', hlen, hoffender⟩ | herror
  · exact Or.inl ⟨a, s', hrun, hs', by omega, hoffender⟩
  · exact Or.inr herror

theorem Follows.of_offender_eq (h : Follows k p q r s)
    (heq : u.offender s.tokens = q.offender s.tokens) : Follows k p u r s := by
  rwa [Follows, heq]

theorem follows_checkAllowed (hs : Ended s.tokens) (hasked : ∀ t ∈ s.tokens, t.kind ≠ .symbol '?')
    (q : Expecting) : Follows 0 checkAllowed q q s := by
  obtain ⟨tokens, vars⟩ := s
  obtain ⟨⟨kind, column⟩, ts, rfl⟩ := List.exists_cons_of_ne_nil hs.ne_nil
  cases kind with
  | nul =>
      refine Or.inr ⟨⟨column, .nul⟩, _, rfl, offender_cons_none ?_, rfl, rfl, by simp, by simp⟩
      exact step_eq_none (Or.inl rfl) q
  | stray =>
      refine Or.inr ⟨⟨column, .stray⟩, _, rfl, offender_cons_none ?_, rfl, rfl, by simp, by simp⟩
      exact step_eq_none (Or.inr (Or.inl rfl)) q
  | name | symbol | eof =>
      exact Or.inl ⟨(), _, rfl, ⟨hs, by simp [ParserState.kinds], hasked⟩, Nat.le_refl _, rfl⟩

theorem Ready.exists_cons (hs : Ready s) :
    ∃ t ts, s.tokens = t :: ts ∧ t.kind ≠ .nul ∧ t.kind ≠ .stray := by
  obtain ⟨tokens, vars⟩ := s
  obtain ⟨t, ts, rfl⟩ := List.exists_cons_of_ne_nil hs.ended.ne_nil
  obtain ⟨hnul, hstray⟩ := hs.allowed
  refine ⟨t, ts, rfl, fun h => hnul ?_, fun h => hstray ?_⟩
  · simp [ParserState.kinds, h]
  · simp [ParserState.kinds, h]

theorem follows_advance (hs : Ready s) (htokens : s.tokens = t :: ts) (ht : t.kind.Written)
    (hstep : q.step t.kind = some r) : Follows 1 advance q r s := by
  obtain ⟨tokens, vars⟩ := s
  obtain rfl : tokens = t :: ts := htokens
  have hended : Ended ts := by
    cases hs.ended with
    | last h => exact absurd ht h
    | cons _ h => exact h
  obtain ⟨t', ts, rfl⟩ := List.exists_cons_of_ne_nil hended.ne_nil
  have hadvance : advance ⟨t :: t' :: ts, vars⟩ = checkAllowed ⟨t' :: ts, vars⟩ := rfl
  have hasked := (List.forall_mem_cons.mp hs.noneAsked).2
  rw [Follows, hadvance, offender_cons_some hstep]
  rcases follows_checkAllowed (s := ⟨t' :: ts, vars⟩) hended hasked r with
    ⟨a, s', hrun, hs', hlen, hoffender⟩ | herror
  · exact Or.inl ⟨a, s', hrun, hs', by simpa using hlen, hoffender⟩
  · exact Or.inr herror

/-- The parser gives up where the token to be read next was not expected. -/
theorem follows_fail (hs : Ready s) (htokens : s.tokens = t :: ts) (hstep : q.step t.kind = none)
    {problem : Problem} (hfound : problem.found? = some t.kind) :
    Follows k (fail problem : Parser α) q r s := by
  obtain ⟨t', ts', htokens', hnul, hstray⟩ := hs.exists_cons
  obtain ⟨rfl, rfl⟩ := List.cons.inj (htokens.symm.trans htokens')
  obtain ⟨tokens, vars⟩ := s
  obtain rfl : tokens = t :: ts := htokens
  refine Or.inr ⟨⟨t.column, problem⟩, t, rfl, offender_cons_none hstep, rfl, hfound,
    iff_of_false ?_ hnul, iff_of_false ?_ hstray⟩
  · rintro rfl
    exact hnul (Option.some.inj hfound).symm
  · rintro rfl
    exact hstray (Option.some.inj hfound).symm

theorem Follows.congr {p' : Parser α} (h : Follows k p' q r s) (heq : p s = p' s) :
    Follows k p q r s := by
  rwa [Follows, heq]

theorem follows_name (hs : Ready s) : Follows 1 name (.type d) (.args d) s := by
  obtain ⟨tokens, vars⟩ := s
  obtain ⟨⟨kind, column⟩, ts, htokens, -⟩ := hs.exists_cons
  obtain rfl : tokens = ⟨kind, column⟩ :: ts := htokens
  cases kind with
  | name text =>
      have hread : Follows 1 (advance >>= fun _ => pure text) (.type d) (.args d)
          ⟨⟨.name text, column⟩ :: ts, vars⟩ :=
        (follows_advance hs rfl trivial rfl).bind fun _ s' hs' _ => follows_pure hs' text
      exact hread.congr rfl
  | symbol | eof | nul | stray =>
      exact (follows_fail hs rfl rfl rfl).congr rfl

theorem follows_close (hs : Ready s) : Follows 1 (symbol '>') (.close d) (.after d) s := by
  obtain ⟨tokens, vars⟩ := s
  obtain ⟨t, ts, htokens, -⟩ := hs.exists_cons
  obtain rfl : tokens = t :: ts := htokens
  have hsymbol : symbol '>' ⟨t :: ts, vars⟩ =
      (if t.kind = .symbol '>' then advance else fail (.expectedSymbol '>' t.kind))
        ⟨t :: ts, vars⟩ := rfl
  refine Follows.congr ?_ hsymbol
  split
  · rename_i ht
    refine follows_advance hs rfl (ht ▸ trivial) ?_
    rw [step, closing, if_pos ht]
  · rename_i ht
    refine follows_fail hs rfl ?_ rfl
    rw [step, closing, if_neg ht]

/-- A parser that first looks for a symbol. -/
theorem follows_ite {c : Char} {p' : Parser α} (hs : Ready s)
    (hpos : ∀ t ts, s.tokens = t :: ts → t.kind = .symbol c → Follows k p q r s)
    (hneg : ∀ t ts, s.tokens = t :: ts → t.kind ≠ .symbol c → Follows k p' q r s) :
    Follows k (do if ← atSymbol c then p else p') q r s := by
  obtain ⟨tokens, vars⟩ := s
  obtain ⟨t, ts, htokens, -⟩ := hs.exists_cons
  obtain rfl : tokens = t :: ts := htokens
  have hlook : (do if ← atSymbol c then p else p' : Parser α) ⟨t :: ts, vars⟩ =
      (if decide (t.kind = .symbol c) = true then p else p') ⟨t :: ts, vars⟩ := rfl
  refine Follows.congr ?_ hlook
  split
  · rename_i ht
    exact hpos t ts rfl (of_decide_eq_true ht)
  · rename_i ht
    exact hneg t ts rfl fun h => ht (decide_eq_true h)

/-- The parser follows what is expected, if the bound allows for all tokens to be read. -/
def FollowsWithin (p : Nat → Parser α) (q r : Nat → Expecting) (n : Nat) : Prop :=
  ∀ d s, Ready s → 2 * s.tokens.length ≤ n → Follows 0 (p n) (q d) (r d) s

theorem followsType_succ (hargs : FollowsWithin (argsWithin ⟨[], false⟩) .args .after n) :
    FollowsWithin (typeWithin ⟨[], false⟩) .type .after (n + 1) := by
  intro d s hs hlen
  rw [typeWithin]
  refine follows_ite hs (fun t ts htokens ht => ?_) fun _ _ _ _ => ?_
  · exact absurd ht (hs.noneAsked t (htokens ▸ List.mem_cons_self))
  · refine ((follows_name hs).bind fun id s' hs' hlen' => ?_).weaken
    exact (hargs d s' hs' (by omega)).bind fun args s'' hs'' _ => follows_pure hs'' _

theorem followsArgs_succ (htype : FollowsWithin (typeWithin ⟨[], false⟩) .type .after n)
    (hmore : FollowsWithin (moreWithin ⟨[], false⟩) (fun d => .after (d + 1)) .close n) :
    FollowsWithin (argsWithin ⟨[], false⟩) .args .after (n + 1) := by
  intro d s hs hlen
  rw [argsWithin]
  refine follows_ite hs (fun t ts htokens ht => ?_) fun t ts htokens ht => ?_
  · have hopen : Follows 1 advance (.args d) (.type (d + 1)) s :=
      follows_advance hs htokens (ht ▸ trivial) (by rw [step, if_pos ht])
    refine (hopen.bind fun _ s₁ hs₁ hlen₁ => ?_).weaken
    refine (htype (d + 1) s₁ hs₁ (by omega)).bind fun first s₂ hs₂ hlen₂ => ?_
    refine (hmore d s₂ hs₂ (by omega)).bind fun rest s₃ hs₃ hlen₃ => ?_
    exact ((follows_close hs₃).bind fun _ s₄ hs₄ _ => follows_pure hs₄ _).weaken
  · refine (follows_pure hs []).of_offender_eq ?_
    rw [htokens, offender, offender, step_args ht]

theorem followsMore_succ (htype : FollowsWithin (typeWithin ⟨[], false⟩) .type .after n)
    (hmore : FollowsWithin (moreWithin ⟨[], false⟩) (fun d => .after (d + 1)) .close n) :
    FollowsWithin (moreWithin ⟨[], false⟩) (fun d => .after (d + 1)) .close (n + 1) := by
  intro d s hs hlen
  rw [moreWithin]
  refine follows_ite hs (fun t ts htokens ht => ?_) fun t ts htokens ht => ?_
  · have hcomma : Follows 1 advance (.after (d + 1)) (.type (d + 1)) s :=
      follows_advance hs htokens (ht ▸ trivial) (by rw [step, following, if_pos ht])
    refine (hcomma.bind fun _ s₁ hs₁ hlen₁ => ?_).weaken
    refine (htype (d + 1) s₁ hs₁ (by omega)).bind fun next s₂ hs₂ hlen₂ => ?_
    exact (hmore d s₂ hs₂ (by omega)).bind fun rest s₃ hs₃ _ => follows_pure hs₃ _
  · refine (follows_pure hs []).of_offender_eq ?_
    rw [htokens, offender, offender, step_after ht]

/-- The readers of types and of lists of types follow what is expected. -/
theorem follows_within (n : Nat) :
    FollowsWithin (typeWithin ⟨[], false⟩) .type .after n ∧
      FollowsWithin (argsWithin ⟨[], false⟩) .args .after n ∧
      FollowsWithin (moreWithin ⟨[], false⟩) (fun d => .after (d + 1)) .close n := by
  induction n with
  | zero =>
      have hpos : ∀ {s}, Ready s → 0 < s.tokens.length := fun hs =>
        List.length_pos_of_ne_nil hs.ended.ne_nil
      refine ⟨fun d s hs hlen => ?_, fun d s hs hlen => ?_, fun d s hs hlen => ?_⟩
      all_goals
        have := hpos hs
        omega
  | succ n ih =>
      obtain ⟨htype, hargs, hmore⟩ := ih
      exact ⟨followsType_succ hargs, followsArgs_succ htype hmore, followsMore_succ htype hmore⟩

theorem follows_atEnd (hs : Ready s) : Follows 0 atEnd (.after 0) (.after 0) s := by
  obtain ⟨tokens, vars⟩ := s
  obtain ⟨t, ts, htokens, -⟩ := hs.exists_cons
  obtain rfl : tokens = t :: ts := htokens
  have hend : atEnd ⟨t :: ts, vars⟩ =
      (if t.kind ≠ .eof then fail (.unexpected t.kind) else pure ()) ⟨t :: ts, vars⟩ := rfl
  refine Follows.congr ?_ hend
  split
  · rename_i ht
    refine follows_fail hs rfl ?_ rfl
    rw [step, following, if_neg ht]
  · exact follows_pure hs ()

theorem follows_type (hs : Ready s) : Follows 0 (type ⟨[], false⟩) (.type 0) (.after 0) s := by
  obtain ⟨htype, -⟩ := follows_within (2 * s.tokens.length + 2)
  exact (htype 0 s hs (by omega)).congr rfl

/-- Reading a whole text fails at the first token that is not expected. -/
theorem follows_whole (hs : Ended s.tokens) (hasked : ∀ t ∈ s.tokens, t.kind ≠ .symbol '?') :
    Follows 0 (do checkAllowed; let t ← type ⟨[], false⟩; atEnd; pure t) (.type 0) (.after 0)
      s := by
  refine (follows_checkAllowed hs hasked (.type 0)).bind fun _ s₁ hs₁ _ => ?_
  refine (follows_type hs₁).bind fun t s₂ hs₂ _ => ?_
  exact (follows_atEnd hs₂).bind fun _ s₃ hs₃ _ => follows_pure hs₃ t

end Parser

theorem offender_of_parseType {source : Text} {e : ParseError}
    (hasked : ∀ t ∈ tokens source, t.kind ≠ .symbol '?') (h : parseType source = .error e) :
    ∃ t, (Expecting.type 0).offender (tokens source) = some t ∧ e.failure.About t := by
  have hs : Ended (ParserState.mk (tokens source) []).tokens := ended_tokens source
  rw [parseType, Parser.run] at h
  rcases Parser.follows_whole hs hasked with ⟨t, s', hrun, -⟩ | ⟨e', t, hrun, hoffender, habout⟩
  · rw [hrun] at h
    cases h
  · rw [hrun] at h
    cases h
    exact ⟨t, hoffender, habout⟩

end TraitResolution.TypeExpr

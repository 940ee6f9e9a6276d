import TraitResolution.Proofs.Expressions

/-!
# What each reader of type expressions does

For each reader an equivalence says when it returns, what it returns and which tokens it takes.
Symbols and names are taken one at a time. The readers of types and of lists of types look at the
next token and then take tokens and call each other.

## Implementation notes

Tokens that cannot be read come last, so a reader that took a written token has one more to look
at. The equivalences assume this (`Ended`), and the step from one token to the next keeps it.
-/

namespace TraitResolution.TypeExpr

variable {scope : Scope} {k : TokenKind} {ks rest : List TokenKind} {n : Nat}

/-- The kinds of the tokens that are left. -/
def ParserState.kinds (s : ParserState) : List TokenKind :=
  s.tokens.map (·.kind)

namespace Parser

variable {s s' mid : ParserState}

/-- Nothing that is not allowed is left to be read. -/
def Clean (ks : List TokenKind) : Prop :=
  .nul ∉ ks ∧ .stray ∉ ks

theorem clean_append (hks : ∀ k ∈ ks, k.Written) (hrest : Clean rest) : Clean (ks ++ rest) := by
  refine ⟨fun h => ?_, fun h => ?_⟩
  · rcases List.mem_append.mp h with h | h
    · exact hks _ h
    · exact hrest.1 h
  · rcases List.mem_append.mp h with h | h
    · exact hks _ h
    · exact hrest.2 h

/-- The token `k` is read from `s`, and what is to be read next is allowed. -/
structure Takes (s : ParserState) (k : TokenKind) (s' : ParserState) : Prop where
  tokens : ∃ column, s.tokens = ⟨k, column⟩ :: s'.tokens
  vars : s'.vars = s.vars
  allowed : s'.kinds.head? ≠ some .nul ∧ s'.kinds.head? ≠ some .stray

theorem Takes.kinds (h : Takes s k s') : s.kinds = k :: s'.kinds := by
  obtain ⟨column, htokens⟩ := h.tokens
  rw [ParserState.kinds, htokens]
  rfl

theorem Takes.ended (h : Takes s k s') (hs : Ended s.tokens) (hk : k.Written) :
    Ended s'.tokens := by
  obtain ⟨column, htokens⟩ := h.tokens
  obtain ⟨tokens', vars'⟩ := s'
  rw [htokens] at hs
  cases hs with
  | last ht => exact absurd hk ht
  | cons _ h => exact h

theorem exists_takes (hkinds : s.kinds = k :: rest) (hrest : Clean rest) :
    ∃ s', Takes s k s' ∧ s'.kinds = rest := by
  obtain ⟨tokens, vars⟩ := s
  obtain ⟨t, ts, rfl, rfl, rfl⟩ := List.map_eq_cons_iff.mp hkinds
  refine ⟨⟨ts, vars⟩, ⟨⟨t.column, rfl⟩, rfl, ?_, ?_⟩, rfl⟩
  · exact fun h => hrest.1 (List.mem_of_mem_head? h)
  · exact fun h => hrest.2 (List.mem_of_mem_head? h)

theorem bind_eq_ok {α β : Type} {p : Parser α} {f : α → Parser β} {b : β} :
    (p >>= f) s = .ok (b, s') ↔ ∃ a mid, p s = .ok (a, mid) ∧ f a mid = .ok (b, s') := by
  change (p s >>= fun x => f x.1 x.2) = _ ↔ _
  cases p s with
  | error e => simp [bind, Except.bind]
  | ok x =>
      obtain ⟨a, mid⟩ := x
      simp [bind, Except.bind]

theorem pure_iff {α : Type} {a b : α} : (pure a : Parser α) s = .ok (b, s') ↔ b = a ∧ s' = s := by
  constructor
  · intro h
    cases h
    exact ⟨rfl, rfl⟩
  · rintro ⟨rfl, rfl⟩
    rfl

theorem checkAllowed_iff {u : Unit} :
    checkAllowed s = .ok (u, s') ↔
      s' = s ∧ s.kinds.head? ≠ some .nul ∧ s.kinds.head? ≠ some .stray := by
  obtain ⟨tokens, vars⟩ := s
  cases tokens with
  | nil =>
      change Except.ok ((), _) = _ ↔ _
      simp [ParserState.kinds, eq_comm]
  | cons t tokens =>
      obtain ⟨kind, column⟩ := t
      cases kind with
      | nul =>
          constructor
          · intro h
            cases h
          · rintro ⟨-, hnul, -⟩
            exact absurd rfl hnul
      | stray =>
          constructor
          · intro h
            cases h
          · rintro ⟨-, -, hstray⟩
            exact absurd rfl hstray
      | name text | symbol c | eof =>
          change Except.ok ((), _) = _ ↔ _
          simp [ParserState.kinds, eq_comm]

theorem checkAllowed_of_clean (h : Clean s.kinds) : checkAllowed s = .ok ((), s) := by
  refine checkAllowed_iff.mpr ⟨rfl, ?_, ?_⟩
  · exact fun hhead => h.1 (List.mem_of_mem_head? hhead)
  · exact fun hhead => h.2 (List.mem_of_mem_head? hhead)

theorem advance_iff {u : Unit} (hs : Ended s.tokens) (hk : k.Written)
    (hhead : s.kinds.head? = some k) : advance s = .ok (u, s') ↔ Takes s k s' := by
  obtain ⟨tokens, vars⟩ := s
  cases hs with
  | last ht =>
      obtain rfl : _ = k := by simpa [ParserState.kinds] using hhead
      exact absurd hk ht
  | @cons t ts _ hts =>
      obtain rfl : t.kind = k := by simpa [ParserState.kinds] using hhead
      obtain ⟨t', ts, rfl⟩ := List.exists_cons_of_ne_nil hts.ne_nil
      have hadvance : advance ⟨t :: t' :: ts, vars⟩ = checkAllowed ⟨t' :: ts, vars⟩ := rfl
      rw [hadvance, checkAllowed_iff]
      constructor
      · rintro ⟨rfl, hallowed⟩
        exact ⟨⟨t.column, rfl⟩, rfl, hallowed⟩
      · rintro ⟨⟨column, htokens⟩, hvars, hallowed⟩
        obtain ⟨tokens', vars'⟩ := s'
        obtain ⟨-, rfl⟩ := List.cons.inj htokens
        obtain rfl : vars' = vars := hvars
        exact ⟨rfl, hallowed⟩

theorem atSymbol_iff {c : Char} {b : Bool} :
    atSymbol c s = .ok (b, s') ↔ s' = s ∧ b = decide (s.kinds.head? = some (.symbol c)) := by
  obtain ⟨tokens, vars⟩ := s
  cases tokens with
  | nil =>
      change Except.ok (decide (TokenKind.eof = .symbol c), _) = _ ↔ _
      simp [ParserState.kinds, eq_comm, and_comm]
  | cons t tokens =>
      change Except.ok (decide (t.kind = .symbol c), _) = _ ↔ _
      simp [ParserState.kinds, eq_comm, and_comm]

theorem symbol_iff {c : Char} {u : Unit} (hs : Ended s.tokens) :
    symbol c s = .ok (u, s') ↔ Takes s (.symbol c) s' := by
  obtain ⟨tokens, vars⟩ := s
  obtain ⟨t, ts, rfl⟩ := List.exists_cons_of_ne_nil hs.ne_nil
  have hsymbol : symbol c ⟨t :: ts, vars⟩ =
      (if t.kind = .symbol c then advance else fail (.expectedSymbol c t.kind)) ⟨t :: ts, vars⟩ :=
    rfl
  rw [hsymbol]
  split
  · rename_i hc
    exact advance_iff (k := .symbol c) hs trivial (by simp [ParserState.kinds, hc])
  · rename_i hc
    constructor
    · intro h
      cases h
    · intro h
      exact absurd (List.cons.inj h.kinds).1 hc

theorem name_iff {v : String} (hs : Ended s.tokens) :
    name s = .ok (v, s') ↔ Takes s (.name v) s' := by
  obtain ⟨tokens, vars⟩ := s
  obtain ⟨⟨kind, column⟩, ts, rfl⟩ := List.exists_cons_of_ne_nil hs.ne_nil
  cases kind with
  | name text =>
      have hname : name ⟨⟨.name text, column⟩ :: ts, vars⟩ =
          (advance >>= fun _ => pure text) ⟨⟨.name text, column⟩ :: ts, vars⟩ := rfl
      have hadvance : ∀ u s', advance ⟨⟨.name text, column⟩ :: ts, vars⟩ = .ok (u, s') ↔
          Takes ⟨⟨.name text, column⟩ :: ts, vars⟩ (.name text) s' :=
        fun u s' => advance_iff hs trivial rfl
      rw [hname, bind_eq_ok]
      constructor
      · rintro ⟨u, mid, h, hpure⟩
        cases hpure
        exact (hadvance u s').mp h
      · intro h
        obtain rfl : text = v := TokenKind.name.inj (List.cons.inj h.kinds).1
        exact ⟨(), s', (hadvance () s').mpr h, rfl⟩
  | symbol | eof | nul | stray =>
      constructor
      · intro h
        cases h
      · intro h
        cases (List.cons.inj h.kinds).1

theorem inferenceVar_of_allowsVars (v : String) (hallowed : scope.allowsVars = true) :
    inferenceVar scope v s =
      .ok (.var ⟨(seen s.vars [v]).idxOf v, 0⟩, ⟨s.tokens, seen s.vars [v]⟩) := by
  rw [inferenceVar, if_pos hallowed]
  refine bind_eq_ok.mpr ⟨s, s, rfl, ?_⟩
  cases hi : s.vars.idxOf? v with
  | some i =>
      have hmem : v ∈ s.vars := by
        by_contra hv
        rw [List.idxOf?_eq_none_iff.mpr hv] at hi
        cases hi
      have hseen : seen s.vars [v] = s.vars := by simp [seen, hmem]
      have hidx : s.vars.idxOf v = i := by
        rw [List.idxOf_eq_getD_idxOf?, hi, Option.getD_some]
      rw [hseen, hidx]
      rfl
  | none =>
      have hmem : v ∉ s.vars := List.idxOf?_eq_none_iff.mp hi
      have hseen : seen s.vars [v] = s.vars ++ [v] := by simp [seen, hmem]
      have hlast : (s.vars ++ [v]).idxOf v = s.vars.length := by
        simp [List.idxOf_append_of_notMem hmem]
      rw [hseen, hlast]
      rfl

theorem inferenceVar_iff {v : String} {t : Ty} :
    inferenceVar scope v s = .ok (t, s') ↔ scope.allowsVars = true ∧
      s' = ⟨s.tokens, seen s.vars [v]⟩ ∧ t = .var ⟨(seen s.vars [v]).idxOf v, 0⟩ := by
  constructor
  · intro h
    by_cases hallowed : scope.allowsVars = true
    · rw [inferenceVar_of_allowsVars v hallowed] at h
      cases h
      exact ⟨hallowed, rfl, rfl⟩
    · rw [inferenceVar, if_neg hallowed] at h
      cases h
  · rintro ⟨hallowed, rfl, rfl⟩
    exact inferenceVar_of_allowsVars v hallowed

/-- A reader that does one thing after the symbol `c` and another if there is none. -/
theorem whenSymbol_iff {α : Type} {c : Char} {p q : Parser α} {a : α} (hs : Ended s.tokens) :
    (atSymbol c >>= fun b => if b = true then advance >>= fun _ => p else q) s = .ok (a, s') ↔
      (∃ mid, Takes s (.symbol c) mid ∧ p mid = .ok (a, s')) ∨
        (s.kinds.head? ≠ some (.symbol c) ∧ q s = .ok (a, s')) := by
  rw [bind_eq_ok]
  constructor
  · rintro ⟨b, _, hb, h⟩
    obtain ⟨rfl, rfl⟩ := atSymbol_iff.mp hb
    split at h
    · rename_i hc
      obtain ⟨u, mid, hadvance, hp⟩ := bind_eq_ok.mp h
      have hmid := (advance_iff (k := .symbol c) hs trivial (of_decide_eq_true hc)).mp hadvance
      exact Or.inl ⟨mid, hmid, hp⟩
    · rename_i hc
      exact Or.inr ⟨by simpa using hc, h⟩
  · rintro (⟨mid, hmid, hp⟩ | ⟨hc, hq⟩)
    · have hhead : s.kinds.head? = some (.symbol c) := by rw [hmid.kinds, List.head?_cons]
      refine ⟨true, s, atSymbol_iff.mpr ⟨rfl, by simp [hhead]⟩, ?_⟩
      rw [if_pos rfl]
      refine bind_eq_ok.mpr ⟨(), mid, ?_, hp⟩
      exact (advance_iff (k := .symbol c) hs trivial hhead).mpr hmid
    · refine ⟨false, s, atSymbol_iff.mpr ⟨rfl, by simp [hc]⟩, ?_⟩
      rw [if_neg Bool.false_ne_true]
      exact hq

theorem whenFor_iff {α : Type} {p : Parser α} {a : α} (hs : Ended s.tokens) :
    (current >>= fun t => if t.kind = .name "for" then advance >>= fun _ => p
      else fail (.expectedFor t.kind)) s = .ok (a, s') ↔
      ∃ mid, Takes s (.name "for") mid ∧ p mid = .ok (a, s') := by
  obtain ⟨tokens, vars⟩ := s
  obtain ⟨t, ts, rfl⟩ := List.exists_cons_of_ne_nil hs.ne_nil
  rw [bind_eq_ok]
  constructor
  · rintro ⟨_, _, hcurrent, h⟩
    cases hcurrent
    split at h
    · rename_i hfor
      obtain ⟨u, mid, hadvance, hp⟩ := bind_eq_ok.mp h
      have hhead : ParserState.kinds ⟨t :: ts, vars⟩ = .name "for" :: ts.map (·.kind) := by
        rw [← hfor]
        rfl
      refine ⟨mid, (advance_iff (k := .name "for") hs trivial ?_).mp hadvance, hp⟩
      rw [hhead, List.head?_cons]
    · cases h
  · rintro ⟨mid, hmid, hp⟩
    refine ⟨t, _, rfl, ?_⟩
    have hfor : t.kind = .name "for" := (List.cons.inj hmid.kinds).1
    rw [if_pos hfor]
    refine bind_eq_ok.mpr ⟨(), mid, ?_, hp⟩
    refine (advance_iff (k := .name "for") hs trivial ?_).mpr hmid
    rw [hmid.kinds, List.head?_cons]

theorem typeWithin_succ_iff {t : Ty} (hs : Ended s.tokens) :
    typeWithin scope (n + 1) s = .ok (t, s') ↔
      (∃ mid last v, Takes s (.symbol '?') mid ∧ Takes mid (.name v) last ∧
        inferenceVar scope v last = .ok (t, s')) ∨
      (∃ id i, Takes s (.name id) s' ∧ scope.params.idxOf? (Text.ofString id) = some i ∧
        s'.kinds.head? ≠ some (.symbol '<') ∧ t = .param i) ∨
      ∃ id mid args, Takes s (.name id) mid ∧ scope.params.idxOf? (Text.ofString id) = none ∧
        argsWithin scope n mid = .ok (args, s') ∧ t = .con id args := by
  rw [typeWithin]
  refine (whenSymbol_iff hs).trans (or_congr ?_ ?_)
  · constructor
    · rintro ⟨mid, hmid, h⟩
      obtain ⟨v, last, hname, hvar⟩ := bind_eq_ok.mp h
      exact ⟨mid, last, v, hmid, (name_iff (hmid.ended hs trivial)).mp hname, hvar⟩
    · rintro ⟨mid, last, v, hmid, hlast, hvar⟩
      refine ⟨mid, hmid, bind_eq_ok.mpr ⟨v, last, ?_, hvar⟩⟩
      exact (name_iff (hmid.ended hs trivial)).mpr hlast
  · rw [bind_eq_ok]
    constructor
    · rintro ⟨-, id, mid, hname, h⟩
      have hmid := (name_iff hs).mp hname
      cases hi : scope.params.idxOf? (Text.ofString id) with
      | some i =>
          rw [hi] at h
          obtain ⟨b, _, hb, h⟩ := bind_eq_ok.mp h
          obtain ⟨rfl, rfl⟩ := atSymbol_iff.mp hb
          split at h
          · cases h
          · rename_i hbracket
            cases h
            exact Or.inl ⟨id, i, hmid, hi, by simpa using hbracket, rfl⟩
      | none =>
          rw [hi] at h
          obtain ⟨args, last, hargs, hpure⟩ := bind_eq_ok.mp h
          cases hpure
          exact Or.inr ⟨id, mid, args, hmid, hi, hargs, rfl⟩
    · have hhead : ∀ {id mid}, Takes s (.name id) mid → s.kinds.head? ≠ some (.symbol '?') := by
        intro id mid hmid
        simp [hmid.kinds]
      rintro (⟨id, i, hmid, hi, hbracket, rfl⟩ | ⟨id, mid, args, hmid, hi, hargs, rfl⟩)
      · refine ⟨hhead hmid, id, s', (name_iff hs).mpr hmid, ?_⟩
        rw [hi]
        refine bind_eq_ok.mpr ⟨false, s', atSymbol_iff.mpr ⟨rfl, by simp [hbracket]⟩, ?_⟩
        rw [if_neg Bool.false_ne_true]
        rfl
      · refine ⟨hhead hmid, id, mid, (name_iff hs).mpr hmid, ?_⟩
        rw [hi]
        exact bind_eq_ok.mpr ⟨args, s', hargs, rfl⟩

theorem argsWithin_succ_iff {ts : List Ty} (hs : Ended s.tokens) :
    argsWithin scope (n + 1) s = .ok (ts, s') ↔
      (∃ opened first mid more last, Takes s (.symbol '<') opened ∧
        typeWithin scope n opened = .ok (first, mid) ∧ moreWithin scope n mid = .ok (more, last) ∧
        symbol '>' last = .ok ((), s') ∧ ts = first :: more) ∨
      (s.kinds.head? ≠ some (.symbol '<') ∧ ts = [] ∧ s' = s) := by
  rw [argsWithin]
  refine (whenSymbol_iff hs).trans (or_congr ?_ (and_congr_right fun _ => ?_))
  · constructor
    · rintro ⟨opened, hopened, h⟩
      obtain ⟨first, mid, hfirst, h⟩ := bind_eq_ok.mp h
      obtain ⟨more, last, hmore, h⟩ := bind_eq_ok.mp h
      obtain ⟨u, closed, hclosed, hpure⟩ := bind_eq_ok.mp h
      cases hpure
      exact ⟨opened, first, mid, more, last, hopened, hfirst, hmore, hclosed, rfl⟩
    · rintro ⟨opened, first, mid, more, last, hopened, hfirst, hmore, hclosed, rfl⟩
      refine ⟨opened, hopened, bind_eq_ok.mpr ⟨first, mid, hfirst, ?_⟩⟩
      exact bind_eq_ok.mpr ⟨more, last, hmore, bind_eq_ok.mpr ⟨(), s', hclosed, rfl⟩⟩
  · exact pure_iff

theorem moreWithin_succ_iff {ts : List Ty} (hs : Ended s.tokens) :
    moreWithin scope (n + 1) s = .ok (ts, s') ↔
      (∃ opened next mid more, Takes s (.symbol ',') opened ∧
        typeWithin scope n opened = .ok (next, mid) ∧ moreWithin scope n mid = .ok (more, s') ∧
        ts = next :: more) ∨
      (s.kinds.head? ≠ some (.symbol ',') ∧ ts = [] ∧ s' = s) := by
  rw [moreWithin]
  refine (whenSymbol_iff hs).trans (or_congr ?_ (and_congr_right fun _ => ?_))
  · constructor
    · rintro ⟨opened, hopened, h⟩
      obtain ⟨next, mid, hnext, h⟩ := bind_eq_ok.mp h
      obtain ⟨more, last, hmore, hpure⟩ := bind_eq_ok.mp h
      cases hpure
      exact ⟨opened, next, mid, more, hopened, hnext, hmore, rfl⟩
    · rintro ⟨opened, next, mid, more, hopened, hnext, hmore, rfl⟩
      refine ⟨opened, hopened, bind_eq_ok.mpr ⟨next, mid, hnext, ?_⟩⟩
      exact bind_eq_ok.mpr ⟨more, s', hmore, rfl⟩
  · exact pure_iff

theorem atEnd_iff {u : Unit} (hs : Ended s.tokens) :
    atEnd s = .ok (u, s') ↔ s' = s ∧ s.kinds = [.eof] := by
  obtain ⟨tokens, vars⟩ := s
  obtain ⟨t, ts, rfl⟩ := List.exists_cons_of_ne_nil hs.ne_nil
  have hatEnd : atEnd ⟨t :: ts, vars⟩ =
      (if t.kind ≠ .eof then fail (.unexpected t.kind) else pure ()) ⟨t :: ts, vars⟩ := rfl
  rw [hatEnd]
  split
  · rename_i hne
    constructor
    · intro h
      cases h
    · rintro ⟨-, hkinds⟩
      exact absurd (List.cons.inj hkinds).1 hne
  · rename_i heof
    have heof : t.kind = .eof := not_not.mp heof
    cases hs with
    | last _ =>
        rw [pure_iff]
        simp [ParserState.kinds, heof]
    | cons ht _ =>
        rw [heof] at ht
        exact absurd ht id

end Parser

end TraitResolution.TypeExpr

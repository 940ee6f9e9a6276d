import TraitResolution.Proofs.ParserSteps

/-!
# The parser accepts its grammar

A text is read as a type exactly if it spells the sentence of an expression that makes sense in the
scope, and the type is what that expression stands for. The same goes for trait references, with
`for` and the self type where it is not given. There is one such expression at most.

## Implementation notes

From left to right, the equivalences for the readers give a tree for what was read. From right to
left they show that the sentence of a tree is read if the bound is not less than twice its length. A
reader looks at the token after its sentence: no list of arguments may begin there.
-/

namespace TraitResolution.TypeExpr

namespace Parser

variable {scope : Scope} {k : TokenKind} {ks rest : List TokenKind} {n : Nat}
  {s s' mid : ParserState}

/-- The tokens `ks` are read from `s`, with the unknowns `names` among them. -/
structure Consumed (s : ParserState) (ks : List TokenKind) (names : List String)
    (s' : ParserState) : Prop where
  kinds : s.kinds = ks ++ s'.kinds
  ended : Ended s'.tokens
  vars : s'.vars = seen s.vars names

theorem consumed_refl (hs : Ended s.tokens) : Consumed s [] [] s :=
  ⟨rfl, hs, rfl⟩

theorem Consumed.trans {later : List TokenKind} {names others : List String}
    (h : Consumed s ks names mid) (h' : Consumed mid later others s') :
    Consumed s (ks ++ later) (names ++ others) s' where
  kinds := by rw [h.kinds, h'.kinds, List.append_assoc]
  ended := h'.ended
  vars := by rw [h'.vars, h.vars, seen_append]

theorem Takes.consumed (h : Takes s k s') (hs : Ended s.tokens) (hk : k.Written) :
    Consumed s [k] [] s' :=
  ⟨h.kinds, h.ended hs hk, h.vars⟩

/-- What is read later does not change what expressions stand for. -/
theorem Consumed.types_eq {es : List Expr} {names : List String}
    (h : Consumed s ks (es.flatMap Expr.unknowns) mid) (h' : Consumed mid rest names s') :
    es.map (Expr.type scope s'.vars) = es.map (Expr.type scope mid.vars) := by
  apply List.map_congr_left
  intro e he
  apply Expr.type_of_isPrefix
  · rw [h'.vars]
    exact isPrefix_seen _ _
  · intro name hname
    rw [h.vars]
    exact mem_seen (List.mem_flatMap.mpr ⟨e, he, hname⟩)

theorem Consumed.type_eq {e : Expr} {names : List String} (h : Consumed s ks e.unknowns mid)
    (h' : Consumed mid rest names s') : e.type scope s'.vars = e.type scope mid.vars := by
  have hone : Consumed s ks ([e].flatMap Expr.unknowns) mid := by simpa using h
  exact (List.cons.inj (hone.types_eq h')).1

section Sound

/-- What the reader returns is the type of an expression whose sentence was read. -/
def ReadsType (scope : Scope) (p : Parser Ty) : Prop :=
  ∀ {s t s'}, Ended s.tokens → p s = .ok (t, s') →
    ∃ e : Expr, e.Fits scope ∧ Consumed s e.sentence e.unknowns s' ∧ t = e.type scope s'.vars

/-- What the reader returns are the types of expressions whose sentence was read. -/
def ReadsTypes (scope : Scope) (sentence : List Expr → List TokenKind) (p : Parser (List Ty)) :
    Prop :=
  ∀ {s ts s'}, Ended s.tokens → p s = .ok (ts, s') →
    ∃ es : List Expr, (∀ e ∈ es, e.Fits scope) ∧
      Consumed s (sentence es) (es.flatMap Expr.unknowns) s' ∧ ts = es.map (Expr.type scope s'.vars)

theorem readsType_succ (hargs : ReadsTypes scope Expr.argsSentence (argsWithin scope n)) :
    ReadsType scope (typeWithin scope (n + 1)) := by
  intro s t s' hs h
  rcases (typeWithin_succ_iff hs).mp h with ⟨mid, last, v, hmid, hlast, hvar⟩ |
    ⟨id, i, hmid, hi, -, rfl⟩ | ⟨id, mid, args, hmid, hi, hread, rfl⟩
  · obtain ⟨hallowed, rfl, rfl⟩ := inferenceVar_iff.mp hvar
    have hmid := hmid.consumed hs trivial
    have hlast := hlast.consumed hmid.ended trivial
    refine ⟨.unknown v, .unknown hallowed, ⟨?_, hlast.ended, ?_⟩, by simp⟩
    · exact (hmid.trans hlast).kinds
    · rw [(hmid.trans hlast).vars]
      rfl
  · have hid : Text.ofString id ∈ scope.params := by
      by_contra hid
      rw [Expr.idxOf?_eq_none_iff.mpr hid] at hi
      cases hi
    exact ⟨.named id [], .param hid, hmid.consumed hs trivial, (Expr.type_param [] hi).symm⟩
  · have hmid := hmid.consumed hs trivial
    obtain ⟨es, hfits, hes, rfl⟩ := hargs hmid.ended hread
    have hid := Expr.idxOf?_eq_none_iff.mp hi
    refine ⟨.named id es, .con hid hfits, ?_, (Expr.type_con es hid).symm⟩
    rw [Expr.unknowns_named]
    exact hmid.trans hes

theorem readsArgs_succ (htype : ReadsType scope (typeWithin scope n))
    (hmore : ReadsTypes scope Expr.moreSentence (moreWithin scope n)) :
    ReadsTypes scope Expr.argsSentence (argsWithin scope (n + 1)) := by
  intro s ts s' hs h
  rcases (argsWithin_succ_iff hs).mp h with
    ⟨opened, first, mid, more, last, hopened, hfirst, hrest, hclosed, rfl⟩ | ⟨-, rfl, rfl⟩
  · have hopened := hopened.consumed hs trivial
    obtain ⟨e, he, hmid, rfl⟩ := htype hopened.ended hfirst
    obtain ⟨es, hes, hlast, rfl⟩ := hmore hmid.ended hrest
    have hclosed := ((symbol_iff hlast.ended).mp hclosed).consumed hlast.ended trivial
    have hafter := hlast.trans hclosed
    refine ⟨e :: es, List.forall_mem_cons.mpr ⟨he, hes⟩, ?_, ?_⟩
    · simpa [Expr.argsSentence] using hopened.trans (hmid.trans hafter)
    · have hvars : s'.vars = last.vars := hclosed.vars
      rw [List.map_cons, hmid.type_eq hafter, hvars]
  · exact ⟨[], by simp, consumed_refl hs, rfl⟩

theorem readsMore_succ (htype : ReadsType scope (typeWithin scope n))
    (hmore : ReadsTypes scope Expr.moreSentence (moreWithin scope n)) :
    ReadsTypes scope Expr.moreSentence (moreWithin scope (n + 1)) := by
  intro s ts s' hs h
  rcases (moreWithin_succ_iff hs).mp h with
    ⟨opened, next, mid, more, hopened, hnext, hrest, rfl⟩ | ⟨-, rfl, rfl⟩
  · have hopened := hopened.consumed hs trivial
    obtain ⟨e, he, hmid, rfl⟩ := htype hopened.ended hnext
    obtain ⟨es, hes, hlast, rfl⟩ := hmore hmid.ended hrest
    refine ⟨e :: es, List.forall_mem_cons.mpr ⟨he, hes⟩, ?_, ?_⟩
    · simpa [Expr.moreSentence] using hopened.trans (hmid.trans hlast)
    · rw [List.map_cons, hmid.type_eq hlast]
  · exact ⟨[], by simp, consumed_refl hs, rfl⟩

/-- Whatever the bound, what is read is a sentence. -/
theorem reads_sentences (scope : Scope) (n : Nat) :
    ReadsType scope (typeWithin scope n) ∧
      ReadsTypes scope Expr.argsSentence (argsWithin scope n) ∧
      ReadsTypes scope Expr.moreSentence (moreWithin scope n) := by
  induction n with
  | zero =>
      refine ⟨?_, ?_, ?_⟩
      · intro s t s' hs h
        cases h
      · intro s ts s' hs h
        cases h
        exact ⟨[], by simp, consumed_refl hs, rfl⟩
      · intro s ts s' hs h
        cases h
        exact ⟨[], by simp, consumed_refl hs, rfl⟩
  | succ n ih =>
      obtain ⟨htype, hargs, hmore⟩ := ih
      exact ⟨readsType_succ hargs, readsArgs_succ htype hmore, readsMore_succ htype hmore⟩

end Sound

section Complete

theorem argsWithin_of_head? (hs : Ended s.tokens) (hhead : s.kinds.head? ≠ some (.symbol '<')) :
    argsWithin scope n s = .ok ([], s) := by
  cases n with
  | zero => rfl
  | succ n => exact (argsWithin_succ_iff hs).mpr (Or.inr ⟨hhead, rfl, rfl⟩)

theorem moreWithin_of_head? (hs : Ended s.tokens) (hhead : s.kinds.head? ≠ some (.symbol ',')) :
    moreWithin scope n s = .ok ([], s) := by
  cases n with
  | zero => rfl
  | succ n => exact (moreWithin_succ_iff hs).mpr (Or.inr ⟨hhead, rfl, rfl⟩)

/-- The sentence of an expression is read, if no arguments follow it. -/
def AcceptsType (scope : Scope) (n : Nat) : Prop :=
  ∀ {e : Expr} {s rest}, e.Fits scope → 2 * e.sentence.length ≤ n → Ended s.tokens →
    s.kinds = e.sentence ++ rest → Clean rest → rest.head? ≠ some (.symbol '<') →
    ∃ s', typeWithin scope n s = .ok (e.type scope s'.vars, s') ∧
      Consumed s e.sentence e.unknowns s' ∧ s'.kinds = rest

/-- The sentence of arguments is read, if no more arguments follow it. -/
def AcceptsArgs (scope : Scope) (n : Nat) : Prop :=
  ∀ {es : List Expr} {s rest}, (∀ e ∈ es, e.Fits scope) → 2 * (Expr.argsSentence es).length ≤ n →
    Ended s.tokens → s.kinds = Expr.argsSentence es ++ rest → Clean rest →
    rest.head? ≠ some (.symbol '<') →
    ∃ s', argsWithin scope n s = .ok (es.map (Expr.type scope s'.vars), s') ∧
      Consumed s (Expr.argsSentence es) (es.flatMap Expr.unknowns) s' ∧ s'.kinds = rest

/-- The sentence of the arguments after the first one is read, up to the closing bracket. -/
def AcceptsMore (scope : Scope) (n : Nat) : Prop :=
  ∀ {es : List Expr} {s rest}, (∀ e ∈ es, e.Fits scope) → 2 * (Expr.moreSentence es).length ≤ n →
    Ended s.tokens → s.kinds = Expr.moreSentence es ++ .symbol '>' :: rest → Clean rest →
    ∃ s', moreWithin scope n s = .ok (es.map (Expr.type scope s'.vars), s') ∧
      Consumed s (Expr.moreSentence es) (es.flatMap Expr.unknowns) s' ∧
      s'.kinds = .symbol '>' :: rest

theorem acceptsType_succ (hargs : AcceptsArgs scope n) : AcceptsType scope (n + 1) := by
  intro e s rest hfits hlen hs hkinds hrest hhead
  cases hfits with
  | @param id hid =>
      obtain ⟨mid, hmid, rfl⟩ := exists_takes hkinds hrest
      obtain ⟨i, hi⟩ := Expr.exists_idxOf?_eq_some hid
      refine ⟨mid, ?_, hmid.consumed hs trivial, rfl⟩
      rw [Expr.type_param [] hi]
      exact (typeWithin_succ_iff hs).mpr (Or.inr (Or.inl ⟨id, i, hmid, hi, hhead, rfl⟩))
  | @con id args hid hfits =>
      have hwritten := Expr.written_sentence (.named id args)
      rw [Expr.sentence] at hkinds hlen hwritten
      have hclean := clean_append (List.forall_mem_cons.mp hwritten).2 hrest
      obtain ⟨mid, hmid, hmidKinds⟩ := exists_takes hkinds hclean
      have hconsumed := hmid.consumed hs trivial
      obtain ⟨s', hread, hs', hleft⟩ := hargs hfits (by simp at hlen; omega) hconsumed.ended
        hmidKinds hrest hhead
      refine ⟨s', ?_, ?_, hleft⟩
      · rw [Expr.type_con args hid]
        exact (typeWithin_succ_iff hs).mpr (Or.inr (Or.inr
          ⟨id, mid, _, hmid, Expr.idxOf?_eq_none_iff.mpr hid, hread, rfl⟩))
      · rw [Expr.unknowns_named]
        exact hconsumed.trans hs'
  | @unknown v hallowed =>
      have hclean : Clean ([.name v] ++ rest) := clean_append (by simp [TokenKind.Written]) hrest
      obtain ⟨mid, hmid, hmidKinds⟩ := exists_takes hkinds hclean
      obtain ⟨last, hlast, rfl⟩ := exists_takes hmidKinds hrest
      have hconsumed := hmid.consumed hs trivial
      have hboth := hconsumed.trans (hlast.consumed hconsumed.ended trivial)
      refine ⟨⟨last.tokens, seen last.vars [v]⟩, ?_, ⟨hboth.kinds, hboth.ended, ?_⟩, rfl⟩
      · rw [Expr.type_unknown]
        exact (typeWithin_succ_iff hs).mpr (Or.inl
          ⟨mid, last, v, hmid, hlast, inferenceVar_iff.mpr ⟨hallowed, rfl, rfl⟩⟩)
      · rw [hboth.vars]
        rfl

/-- After the token that opens them, arguments are read up to the closing bracket. -/
theorem accepts_items {e : Expr} {es : List Expr} (htype : AcceptsType scope n)
    (hmore : AcceptsMore scope n) (hfits : ∀ a ∈ e :: es, a.Fits scope)
    (hlen : 2 * e.sentence.length ≤ n ∧ 2 * (Expr.moreSentence es).length ≤ n)
    (hs : Ended s.tokens) (hk : k.Written)
    (hkinds : s.kinds = k :: (e.sentence ++ (Expr.moreSentence es ++ .symbol '>' :: rest)))
    (hrest : Clean rest) :
    ∃ opened mid last, Takes s k opened ∧
      typeWithin scope n opened = .ok (e.type scope last.vars, mid) ∧
      moreWithin scope n mid = .ok (es.map (Expr.type scope last.vars), last) ∧
      Consumed s (k :: (e.sentence ++ Expr.moreSentence es)) ((e :: es).flatMap Expr.unknowns)
        last ∧
      last.kinds = .symbol '>' :: rest := by
  obtain ⟨he, hes⟩ := List.forall_mem_cons.mp hfits
  have hclosing : Clean ([.symbol '>'] ++ rest) :=
    clean_append (by simp [TokenKind.Written]) hrest
  have hclean := clean_append (Expr.written_moreSentence es) hclosing
  obtain ⟨opened, hopened, hopenedKinds⟩ :=
    exists_takes hkinds (clean_append e.written_sentence hclean)
  have hconsumed := hopened.consumed hs hk
  obtain ⟨mid, hfirst, hmid, hmidKinds⟩ := htype he hlen.1 hconsumed.ended hopenedKinds hclean
    (Expr.head?_moreSentence_append es rest)
  obtain ⟨last, hread, hlast, hlastKinds⟩ := hmore hes hlen.2 hmid.ended hmidKinds hrest
  rw [← hmid.type_eq hlast] at hfirst
  exact ⟨opened, mid, last, hopened, hfirst, hread, hconsumed.trans (hmid.trans hlast), hlastKinds⟩

theorem acceptsArgs_succ (htype : AcceptsType scope n) (hmore : AcceptsMore scope n) :
    AcceptsArgs scope (n + 1) := by
  intro es s rest hfits hlen hs hkinds hrest hhead
  cases es with
  | nil =>
      have hkinds : s.kinds = rest := hkinds
      exact ⟨s, argsWithin_of_head? hs (hkinds ▸ hhead), consumed_refl hs, hkinds⟩
  | cons e es =>
      simp only [Expr.argsSentence, List.length_cons, List.length_append] at hlen
      have hopens : s.kinds =
          .symbol '<' :: (e.sentence ++ (Expr.moreSentence es ++ .symbol '>' :: rest)) := by
        simp [hkinds, Expr.argsSentence]
      obtain ⟨opened, mid, last, hopened, hfirst, hread, hlast, hlastKinds⟩ :=
        accepts_items (k := .symbol '<') htype hmore hfits ⟨by omega, by omega⟩ hs trivial hopens
          hrest
      obtain ⟨s', hclosed, rfl⟩ := exists_takes hlastKinds hrest
      have hclosedConsumed := hclosed.consumed hlast.ended trivial
      refine ⟨s', ?_, ?_, rfl⟩
      · rw [hclosed.vars]
        exact (argsWithin_succ_iff hs).mpr (Or.inl ⟨opened, _, mid, _, last, hopened, hfirst, hread,
          (symbol_iff hlast.ended).mpr hclosed, rfl⟩)
      · simpa [Expr.argsSentence] using hlast.trans hclosedConsumed

theorem acceptsMore_succ (htype : AcceptsType scope n) (hmore : AcceptsMore scope n) :
    AcceptsMore scope (n + 1) := by
  intro es s rest hfits hlen hs hkinds hrest
  cases es with
  | nil =>
      have hkinds : s.kinds = .symbol '>' :: rest := hkinds
      exact ⟨s, moreWithin_of_head? hs (by simp [hkinds]), consumed_refl hs, hkinds⟩
  | cons e es =>
      simp only [Expr.moreSentence, List.length_cons, List.length_append] at hlen
      have hopens : s.kinds =
          .symbol ',' :: (e.sentence ++ (Expr.moreSentence es ++ .symbol '>' :: rest)) := by
        simp [hkinds, Expr.moreSentence]
      obtain ⟨opened, mid, last, hopened, hnext, hread, hlast, hlastKinds⟩ :=
        accepts_items (k := .symbol ',') htype hmore hfits ⟨by omega, by omega⟩ hs trivial hopens
          hrest
      refine ⟨last, ?_, hlast, hlastKinds⟩
      exact (moreWithin_succ_iff hs).mpr
        (Or.inl ⟨opened, _, mid, _, hopened, hnext, hread, rfl⟩)

/-- A bound of twice the length of a sentence is enough to read it. -/
theorem accepts_sentences (scope : Scope) (n : Nat) :
    AcceptsType scope n ∧ AcceptsArgs scope n ∧ AcceptsMore scope n := by
  induction n with
  | zero =>
      refine ⟨?_, ?_, ?_⟩
      · intro e s rest _ hlen
        have hpos := List.length_pos_of_ne_nil e.sentence_ne_nil
        omega
      · intro es s rest _ hlen hs hkinds hrest hhead
        cases es with
        | nil =>
            have hkinds : s.kinds = rest := hkinds
            exact ⟨s, rfl, consumed_refl hs, hkinds⟩
        | cons e es => simp [Expr.argsSentence] at hlen
      · intro es s rest _ hlen hs hkinds hrest
        cases es with
        | nil => exact ⟨s, rfl, consumed_refl hs, hkinds⟩
        | cons e es => simp [Expr.moreSentence] at hlen
  | succ n ih =>
      obtain ⟨htype, hargs, hmore⟩ := ih
      exact ⟨acceptsType_succ hargs, acceptsArgs_succ htype hmore, acceptsMore_succ htype hmore⟩

end Complete

section Unique

theorem ended_of_written (hks : ∀ k ∈ ks, k.Written) :
    Ended ((ks ++ [TokenKind.eof]).map fun k => ⟨k, 0⟩) := by
  induction ks with
  | nil => exact .last id
  | cons k ks ih =>
      obtain ⟨hk, hks⟩ := List.forall_mem_cons.mp hks
      exact .cons hk (ih hks)

theorem clean_of_written (hks : ∀ k ∈ ks, k.Written) : Clean (ks ++ [TokenKind.eof]) :=
  clean_append hks ⟨by simp, by simp⟩

/-- What is written after arguments shows where they end, unless it begins with a bracket. -/
theorem argsSentence_inj {es es' : List Expr} {ks' : List TokenKind}
    (h : Expr.argsSentence es ++ ks = Expr.argsSentence es' ++ ks') (hks : ∀ k ∈ ks, k.Written)
    (hks' : ∀ k ∈ ks', k.Written) (hhead : (ks ++ [TokenKind.eof]).head? ≠ some (.symbol '<'))
    (hhead' : (ks' ++ [TokenKind.eof]).head? ≠ some (.symbol '<')) : es = es' ∧ ks = ks' := by
  -- both are read from the same tokens, and the parser returns only once
  let n := 2 * (Expr.argsSentence es ++ ks).length
  let s : ParserState := ⟨(Expr.argsSentence es ++ ks ++ [TokenKind.eof]).map fun k => ⟨k, 0⟩, []⟩
  have hwritten : ∀ k ∈ Expr.argsSentence es ++ ks, k.Written :=
    List.forall_mem_append.mpr ⟨Expr.written_argsSentence es, hks⟩
  have hs : Ended s.tokens := ended_of_written hwritten
  have hkinds : s.kinds = Expr.argsSentence es ++ (ks ++ [TokenKind.eof]) := by
    simp [s, ParserState.kinds, Function.comp_def]
  have hkinds' : s.kinds = Expr.argsSentence es' ++ (ks' ++ [TokenKind.eof]) := by
    rw [hkinds, ← List.append_assoc, h, List.append_assoc]
  obtain ⟨-, haccepts, -⟩ := accepts_sentences ⟨[], true⟩ n
  have hlen : (Expr.argsSentence es).length ≤ (Expr.argsSentence es ++ ks).length := by simp
  have hlen' : (Expr.argsSentence es').length ≤ (Expr.argsSentence es ++ ks).length := by simp [h]
  obtain ⟨last, hread, hlast, -⟩ := haccepts (fun e _ => e.fits_nil) (by omega) hs hkinds
    (clean_of_written hks) hhead
  obtain ⟨last', hread', hlast', -⟩ := haccepts (fun e _ => e.fits_nil) (by omega) hs hkinds'
    (clean_of_written hks') hhead'
  obtain ⟨htypes, rfl⟩ : es.map (Expr.type ⟨[], true⟩ last.vars) =
      es'.map (Expr.type ⟨[], true⟩ last'.vars) ∧ last = last' := by
    simpa using hread.symm.trans hread'
  have hnamed : Expr.named "" es = .named "" es' := by
    have htype : (Expr.named "" es).type ⟨[], true⟩ last.vars =
        (Expr.named "" es').type ⟨[], true⟩ last.vars := by
      rw [Expr.type_con es List.not_mem_nil, Expr.type_con es' List.not_mem_nil, htypes]
    refine Expr.type_injective (fun name hname => ?_) (fun name hname => ?_) htype
    · rw [Expr.unknowns_named] at hname
      rw [hlast.vars]
      exact mem_seen hname
    · rw [Expr.unknowns_named] at hname
      rw [hlast'.vars]
      exact mem_seen hname
  obtain rfl : es = es' := (Expr.named.inj hnamed).2
  exact ⟨rfl, List.append_cancel_left h⟩

/-- A sentence has one tree. -/
theorem sentence_injective {d e : Expr} (h : d.sentence = e.sentence) : d = e := by
  cases d with
  | named id args =>
      cases e with
      | named id' args' =>
          obtain ⟨hid, hargs⟩ := List.cons.inj h
          have hboth : Expr.argsSentence args ++ [] = Expr.argsSentence args' ++ [] := by
            rw [List.append_nil, List.append_nil, hargs]
          obtain ⟨rfl, -⟩ := argsSentence_inj hboth (by simp) (by simp) (by simp) (by simp)
          rw [TokenKind.name.inj hid]
      | unknown name => cases (List.cons.inj h).1
  | unknown name =>
      cases e with
      | named id args => cases (List.cons.inj h).1
      | unknown name' =>
          obtain ⟨-, hname⟩ := List.cons.inj h
          rw [TokenKind.name.inj (List.cons.inj hname).1]

theorem traitSentence_injective {x y : TraitExpr} (h : x.sentence = y.sentence) : x = y := by
  obtain ⟨id, args⟩ := x
  obtain ⟨id', args'⟩ := y
  have hnamed : Expr.named id args = .named id' args' := sentence_injective h
  cases hnamed
  rfl

theorem referenceSentence_injective {x y : ReferenceExpr} (h : x.sentence = y.sentence) :
    x = y := by
  obtain ⟨⟨id, args⟩, self⟩ := x
  obtain ⟨⟨id', args'⟩, self'⟩ := y
  obtain ⟨hid, hrest⟩ : TokenKind.name id = .name id' ∧
      Expr.argsSentence args ++ .name "for" :: self.sentence =
        Expr.argsSentence args' ++ .name "for" :: self'.sentence := List.cons.inj h
  have hwritten : ∀ e : Expr, ∀ k ∈ .name "for" :: e.sentence, k.Written :=
    fun e => List.forall_mem_cons.mpr ⟨trivial, e.written_sentence⟩
  obtain ⟨rfl, hself⟩ :=
    argsSentence_inj hrest (hwritten self) (hwritten self') (by simp) (by simp)
  obtain rfl := sentence_injective (List.cons.inj hself).2
  obtain rfl := TokenKind.name.inj hid
  rfl

end Unique

section Whole

variable {α : Type} {source : Text} {vars later : List String} {t : Ty} {r : Reference}

/-- The parser reads the sentences of the trees that fit and nothing else. It returns what the trees
stand for, given the names of the inference variables seen by then. -/
structure Recognizes {τ : Type} (p : Parser α) (sentence : τ → List TokenKind)
    (names : τ → List String) (Fits : τ → Prop) (value : List String → τ → α) : Prop where
  sound : ∀ {s a s'}, Ended s.tokens → p s = .ok (a, s') →
    ∃ x, Fits x ∧ Consumed s (sentence x) (names x) s' ∧ a = value s'.vars x
  complete : ∀ {s x}, Fits x → Ended s.tokens → s.kinds = sentence x ++ [.eof] →
    ∃ s', p s = .ok (value s'.vars x, s') ∧ Consumed s (sentence x) (names x) s'

/-- A whole text is read exactly if it spells the sentence of a tree that fits. -/
theorem Recognizes.run_iff {τ : Type} {p : Parser α} {sentence : τ → List TokenKind}
    {names : τ → List String} {Fits : τ → Prop} {value : List String → τ → α}
    (hp : Recognizes p sentence names Fits value) (hwritten : ∀ x, ∀ k ∈ sentence x, k.Written)
    {a : α} :
    p.run source vars = .ok (a, later) ↔
      ∃ x, Spells source (sentence x) ∧ Fits x ∧ later = seen vars (names x) ∧
        a = value later x := by
  have hs : Ended (ParserState.mk (tokens source) vars).tokens := ended_tokens source
  rw [Parser.run]
  constructor
  · intro h
    split at h
    · rename_i b last hlast
      obtain ⟨rfl, rfl⟩ : b = a ∧ last.vars = later := by simpa using h
      obtain ⟨_, _, hallowed, h⟩ := bind_eq_ok.mp hlast
      obtain ⟨rfl, -⟩ := checkAllowed_iff.mp hallowed
      obtain ⟨_, s', hread, h⟩ := bind_eq_ok.mp h
      obtain ⟨x, hfits, hconsumed, rfl⟩ := hp.sound hs hread
      obtain ⟨_, _, hend, hpure⟩ := bind_eq_ok.mp h
      obtain ⟨rfl, hkinds⟩ := (atEnd_iff hconsumed.ended).mp hend
      obtain ⟨rfl, rfl⟩ := pure_iff.mp hpure
      refine ⟨x, tokens_iff.mp ?_, hfits, hconsumed.vars, rfl⟩
      rw [← hkinds]
      exact hconsumed.kinds
    · cases h
  · rintro ⟨x, hspells, hfits, rfl, rfl⟩
    have hkinds : ParserState.kinds ⟨tokens source, vars⟩ = sentence x ++ [.eof] :=
      tokens_iff.mpr hspells
    obtain ⟨s', hread, hconsumed⟩ := hp.complete hfits hs hkinds
    have hend : s'.kinds = [.eof] :=
      (List.append_cancel_left (hkinds.symm.trans hconsumed.kinds)).symm
    have hvars : s'.vars = seen vars (names x) := hconsumed.vars
    have hallowed : checkAllowed ⟨tokens source, vars⟩ = .ok ((), ⟨tokens source, vars⟩) := by
      apply checkAllowed_of_clean
      rw [hkinds]
      exact clean_of_written (hwritten x)
    have hwhole : (do checkAllowed; let a ← p; atEnd; pure a : Parser α) ⟨tokens source, vars⟩ =
        .ok (value s'.vars x, s') := by
      refine bind_eq_ok.mpr ⟨(), _, hallowed, bind_eq_ok.mpr ⟨_, s', hread, ?_⟩⟩
      exact bind_eq_ok.mpr ⟨(), s', (atEnd_iff hconsumed.ended).mpr ⟨rfl, hend⟩, rfl⟩
    simp only [hwhole, hvars]

theorem recognizes_type (scope : Scope) :
    Recognizes (type scope) Expr.sentence Expr.unknowns (Expr.Fits scope) (Expr.type scope) where
  sound hs h := (reads_sentences scope _).1 hs h
  complete := by
    intro s e hfits hs hkinds
    have hlen : s.tokens.length = e.sentence.length + 1 := by
      simpa [ParserState.kinds] using congrArg List.length hkinds
    obtain ⟨s', hread, hconsumed, -⟩ := (accepts_sentences scope (2 * s.tokens.length + 2)).1 hfits
      (by omega) hs hkinds ⟨by simp, by simp⟩ (by simp)
    exact ⟨s', hread, hconsumed⟩

/-- The arguments of a trait are read if no more arguments follow. -/
theorem exists_args {es : List Expr} (hfits : ∀ e ∈ es, e.Fits scope) (hs : Ended s.tokens)
    (hkinds : s.kinds = Expr.argsSentence es ++ rest) (hrest : Clean rest)
    (hhead : rest.head? ≠ some (.symbol '<')) :
    ∃ s', argsWithin scope (2 * s.tokens.length + 2) s =
        .ok (es.map (Expr.type scope s'.vars), s') ∧
      Consumed s (Expr.argsSentence es) (es.flatMap Expr.unknowns) s' ∧ s'.kinds = rest := by
  have hlen : s.tokens.length = (Expr.argsSentence es).length + rest.length := by
    simpa [ParserState.kinds] using congrArg List.length hkinds
  exact (accepts_sentences scope _).2.1 hfits (by omega) hs hkinds hrest hhead

theorem reference_some_iff {self : Ty} (hs : Ended s.tokens) :
    reference scope (some self) s = .ok (r, s') ↔ ∃ id mid args, Takes s (.name id) mid ∧
      argsWithin scope (2 * mid.tokens.length + 2) mid = .ok (args, s') ∧
      r = ⟨Text.ofString id, self, args⟩ := by
  rw [reference, bind_eq_ok]
  constructor
  · rintro ⟨id, mid, hname, h⟩
    obtain ⟨m, _, hbound, h⟩ := bind_eq_ok.mp h
    cases hbound
    obtain ⟨args, last, hargs, hpure⟩ := bind_eq_ok.mp h
    obtain ⟨rfl, rfl⟩ := pure_iff.mp hpure
    exact ⟨id, mid, args, (name_iff hs).mp hname, hargs, rfl⟩
  · rintro ⟨id, mid, args, hmid, hargs, rfl⟩
    refine ⟨id, mid, (name_iff hs).mpr hmid, bind_eq_ok.mpr ⟨_, mid, rfl, ?_⟩⟩
    exact bind_eq_ok.mpr ⟨args, s', hargs, rfl⟩

theorem reference_none_iff (hs : Ended s.tokens) :
    reference scope none s = .ok (r, s') ↔ ∃ id mid args last after self, Takes s (.name id) mid ∧
      argsWithin scope (2 * mid.tokens.length + 2) mid = .ok (args, last) ∧
      Takes last (.name "for") after ∧ type scope after = .ok (self, s') ∧
      r = ⟨Text.ofString id, self, args⟩ := by
  have hended : ∀ {id mid args last}, Takes s (.name id) mid →
      argsWithin scope (2 * mid.tokens.length + 2) mid = .ok (args, last) → Ended last.tokens := by
    intro id mid args last hmid hargs
    obtain ⟨es, -, hconsumed, -⟩ := (reads_sentences scope _).2.1 (hmid.ended hs trivial) hargs
    exact hconsumed.ended
  rw [reference, bind_eq_ok]
  constructor
  · rintro ⟨id, mid, hname, h⟩
    have hmid := (name_iff hs).mp hname
    obtain ⟨m, _, hbound, h⟩ := bind_eq_ok.mp h
    cases hbound
    obtain ⟨args, last, hargs, h⟩ := bind_eq_ok.mp h
    obtain ⟨after, hfor, h⟩ := (whenFor_iff (hended hmid hargs)).mp h
    obtain ⟨self, last', hself, hpure⟩ := bind_eq_ok.mp h
    obtain ⟨rfl, rfl⟩ := pure_iff.mp hpure
    exact ⟨id, mid, args, last, after, self, hmid, hargs, hfor, hself, rfl⟩
  · rintro ⟨id, mid, args, last, after, self, hmid, hargs, hfor, hself, rfl⟩
    refine ⟨id, mid, (name_iff hs).mpr hmid, bind_eq_ok.mpr ⟨_, mid, rfl, ?_⟩⟩
    refine bind_eq_ok.mpr ⟨args, last, hargs, (whenFor_iff (hended hmid hargs)).mpr ?_⟩
    exact ⟨after, hfor, bind_eq_ok.mpr ⟨self, s', hself, rfl⟩⟩

theorem recognizes_reference_some (scope : Scope) (self : Ty) :
    Recognizes (reference scope (some self)) TraitExpr.sentence TraitExpr.unknowns
      (TraitExpr.Fits scope) (TraitExpr.reference scope self) where
  sound := by
    intro s r s' hs h
    obtain ⟨id, mid, _, hmid, hargs, rfl⟩ := (reference_some_iff hs).mp h
    have hmid := hmid.consumed hs trivial
    obtain ⟨args, hfits, hs', rfl⟩ := (reads_sentences scope _).2.1 hmid.ended hargs
    exact ⟨⟨id, args⟩, hfits, hmid.trans hs', rfl⟩
  complete := by
    intro s x hfits hs hkinds
    have hclean := clean_of_written (Expr.written_argsSentence x.args)
    obtain ⟨mid, hmid, hmidKinds⟩ := exists_takes hkinds hclean
    have hconsumed := hmid.consumed hs trivial
    obtain ⟨s', hread, hs', -⟩ :=
      exists_args hfits hconsumed.ended hmidKinds ⟨by simp, by simp⟩ (by simp)
    refine ⟨s', (reference_some_iff hs).mpr ⟨x.id, mid, _, hmid, hread, rfl⟩, ?_⟩
    exact hconsumed.trans hs'

theorem recognizes_reference_none (scope : Scope) :
    Recognizes (reference scope none) ReferenceExpr.sentence ReferenceExpr.unknowns
      (ReferenceExpr.Fits scope) (ReferenceExpr.reference scope) where
  sound := by
    intro s r s' hs h
    obtain ⟨id, mid, _, last, after, _, hmid, hargs, hfor, htype, rfl⟩ :=
      (reference_none_iff hs).mp h
    have hmid := hmid.consumed hs trivial
    obtain ⟨args, hfits, hlast, rfl⟩ := (reads_sentences scope _).2.1 hmid.ended hargs
    have hfor := hfor.consumed hlast.ended trivial
    obtain ⟨self, hself, hs', rfl⟩ := (recognizes_type scope).sound hfor.ended htype
    have hafter := hfor.trans hs'
    refine ⟨⟨⟨id, args⟩, self⟩, ⟨hfits, hself⟩, ?_, ?_⟩
    · exact (hmid.trans hlast).trans hafter
    · rw [ReferenceExpr.reference, TraitExpr.reference, hlast.types_eq hafter]
  complete := by
    intro s x hfits hs hkinds
    obtain ⟨hargs, hself⟩ := hfits
    have hkinds : s.kinds = .name x.trait.id ::
        (Expr.argsSentence x.trait.args ++ .name "for" :: (x.self.sentence ++ [.eof])) := by
      simpa [ReferenceExpr.sentence, TraitExpr.sentence] using hkinds
    have hselfClean := clean_of_written x.self.written_sentence
    have hforClean : Clean ([.name "for"] ++ (x.self.sentence ++ [.eof])) :=
      clean_append (by simp [TokenKind.Written]) hselfClean
    obtain ⟨mid, hmid, hmidKinds⟩ :=
      exists_takes hkinds (clean_append (Expr.written_argsSentence _) hforClean)
    have hmidConsumed := hmid.consumed hs trivial
    obtain ⟨last, hread, hlast, hlastKinds⟩ :=
      exists_args hargs hmidConsumed.ended hmidKinds hforClean (by simp)
    obtain ⟨after, hfor, hafterKinds⟩ := exists_takes hlastKinds hselfClean
    have hforConsumed := hfor.consumed hlast.ended trivial
    obtain ⟨s', htype, hs'⟩ :=
      (recognizes_type scope).complete hself hforConsumed.ended hafterKinds
    have hafter := hforConsumed.trans hs'
    refine ⟨s', ?_, (hmidConsumed.trans hlast).trans hafter⟩
    rw [ReferenceExpr.reference, TraitExpr.reference, hlast.types_eq hafter]
    exact (reference_none_iff hs).mpr
      ⟨x.trait.id, mid, _, last, after, _, hmid, hread, hfor, htype, rfl⟩

end Whole

/-- A text is read as a type exactly if it spells an expression that makes sense in the scope. It
spells one expression at most, and the type is what that expression stands for: names of type
parameters are replaced by their positions, and each unknown by the inference variable of its name.
Trait references are read in the same way: a trait with its arguments, `for` and an expression where
no self type is given, and a trait with its arguments where one is. -/
theorem run_accepts_grammar (scope : Scope) (source : Text) (vars : List String) :
    (∀ t later, (type scope).run source vars = .ok (t, later) ↔
      ∃ e : Expr, Spells source e.sentence ∧ (∀ d : Expr, Spells source d.sentence → d = e) ∧
        e.Fits scope ∧ later = seen vars e.unknowns ∧ t = e.type scope later) ∧
    (∀ r later, (reference scope none).run source vars = .ok (r, later) ↔
      ∃ x : ReferenceExpr, Spells source x.sentence ∧
        (∀ y : ReferenceExpr, Spells source y.sentence → y = x) ∧ x.Fits scope ∧
        later = seen vars x.unknowns ∧ r = x.reference scope later) ∧
    ∀ self r later, (reference scope (some self)).run source vars = .ok (r, later) ↔
      ∃ x : TraitExpr, Spells source x.sentence ∧
        (∀ y : TraitExpr, Spells source y.sentence → y = x) ∧ x.Fits scope ∧
        later = seen vars x.unknowns ∧ r = x.reference scope self later := by
  refine ⟨fun t later => ?_, fun r later => ?_, fun self r later => ?_⟩
  · rw [(recognizes_type scope).run_iff Expr.written_sentence]
    refine exists_congr fun e => and_congr_right fun he => (and_iff_right fun d hd => ?_).symm
    exact sentence_injective (hd.unique he)
  · rw [(recognizes_reference_none scope).run_iff ReferenceExpr.written_sentence]
    refine exists_congr fun x => and_congr_right fun hx => (and_iff_right fun y hy => ?_).symm
    exact referenceSentence_injective (hy.unique hx)
  · rw [(recognizes_reference_some scope self).run_iff TraitExpr.written_sentence]
    refine exists_congr fun x => and_congr_right fun hx => (and_iff_right fun y hy => ?_).symm
    exact traitSentence_injective (hy.unique hx)

end Parser

end TraitResolution.TypeExpr

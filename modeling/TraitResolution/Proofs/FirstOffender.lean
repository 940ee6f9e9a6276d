import TraitResolution.Proofs.ParserFailures
import TraitResolution.Proofs.RoundTrip

/-!
# Errors are reported at the first offending token

Tokens are viable if they begin some text that can be read as a type. The first offender of a text
is the token with which its tokens stop being viable. If a text cannot be read as a type, this is
the token that the failure is about, whatever comes later.

Bytes that belong to no character are an exception. Such a byte is noticed by the scanner while it
looks for the end of the token before it, and the failure is reported there.

## Implementation notes

What is expected next (`Expecting`) decides whether tokens are viable. Tokens that were expected one
after the other can be completed by a name, if a type is missing, and by the brackets that are
open. The parser reads what results, since it could fail only at a token that was not expected.
-/

namespace TraitResolution.TypeExpr

variable {ks ls : List TokenKind} {k : TokenKind} {t t' : Token} {ts : List Token} {source : Text}
  {q r : Expecting} {d : Nat}

/-- The tokens begin some text that can be read as a type. -/
def Viable (ks : List TokenKind) : Prop :=
  ∃ source t, parseType source = .ok t ∧ ks <+: (tokens source).map (·.kind)

/-- The token with which tokens stop being viable. -/
def FirstOffender (ts : List Token) (t : Token) : Prop :=
  ∃ before after, ts = before ++ t :: after ∧ Viable (before.map (·.kind)) ∧
    ¬Viable ((before ++ [t]).map (·.kind))

theorem Viable.of_isPrefix (h : Viable ls) (hks : ks <+: ls) : Viable ks := by
  obtain ⟨source, t, hparse, hls⟩ := h
  exact ⟨source, t, hparse, hks.trans hls⟩

namespace Expecting

section Sentences

variable {es : List Expr}

/-- Where no arguments begin, what follows a type is expected. -/
theorem run_args (hks : ks ≠ []) (hhead : ks.head? ≠ some (.symbol '<')) :
    (args d).run ks = (after d).run ks := by
  obtain ⟨k, ks, rfl⟩ := List.exists_cons_of_ne_nil hks
  have hk : k ≠ .symbol '<' := fun h => hhead (by rw [List.head?_cons, h])
  rw [run, run, List.foldlM_cons, List.foldlM_cons, step_args hk]

/-- What is expected after the sentence of an expression, wherever it stands. -/
def Passes (e : Expr) : Prop :=
  ∀ {d ks}, ks ≠ [] → ks.head? ≠ some (.symbol '<') →
    (type d).run (e.sentence ++ ks) = (after d).run ks

theorem run_moreSentence (hes : ∀ e ∈ es, Passes e) :
    (after (d + 1)).run (Expr.moreSentence es ++ .symbol '>' :: ks) = (after d).run ks := by
  induction es with
  | nil => exact run_cons rfl
  | cons e es ih =>
      obtain ⟨he, hes⟩ := List.forall_mem_cons.mp hes
      rw [Expr.moreSentence, List.cons_append, run_cons rfl, List.append_assoc,
        he (by simp) (Expr.head?_moreSentence_append es ks), ih hes]

theorem passes_of_fits {e : Expr} (h : e.Fits ⟨[], false⟩) : Passes e := by
  induction h with
  | param hid => exact absurd hid List.not_mem_nil
  | unknown hallowed => cases hallowed
  | @con id args hid _ ih =>
      intro d ks hks hhead
      rw [Expr.sentence, List.cons_append, run_cons rfl]
      cases args with
      | nil => exact run_args hks hhead
      | cons a args =>
          obtain ⟨ha, hargs⟩ := List.forall_mem_cons.mp ih
          rw [Expr.argsSentence, List.cons_append, run_cons rfl, List.append_assoc,
            List.append_assoc, List.singleton_append,
            ha (by simp) (Expr.head?_moreSentence_append args ks), run_moreSentence hargs]

/-- Viable tokens are expected one after the other. -/
theorem run_of_viable (h : Viable ks) : ∃ r, (type 0).run ks = some r := by
  obtain ⟨source, t, hparse, rest, hrest⟩ := h
  obtain ⟨e, hspells, hfits, -⟩ := parseType_iff.mp hparse
  have hrun : (type 0).run (ks ++ rest) = some nothing := by
    rw [hrest, tokens_iff.mpr hspells, passes_of_fits hfits (by simp) (by simp)]
    rfl
  rw [run_append, Option.bind_eq_some_iff] at hrun
  obtain ⟨r, hr, -⟩ := hrun
  exact ⟨r, hr⟩

end Sentences

section Completion

/-- The brackets that are open at a depth, and the end of the text. -/
def closers (d : Nat) : List TokenKind :=
  List.replicate d (.symbol '>') ++ [.eof]

/-- Tokens that complete a type expression. -/
def completion : Expecting → List TokenKind
  | type d => .name "T" :: closers d
  | args d | after d => closers d
  | close d => .symbol '>' :: closers d
  | nothing => []

theorem run_closers : (after d).run (closers d) = some nothing := by
  induction d with
  | zero => rfl
  | succ d ih =>
      rw [closers, List.replicate_succ, List.cons_append, run_cons rfl]
      exact ih

theorem run_args_closers : (args d).run (closers d) = some nothing := by
  have hhead : (closers d).head? ≠ some (.symbol '<') := by
    cases d <;> simp [closers, List.replicate_succ]
  rw [run_args (by simp [closers]) hhead, run_closers]

theorem run_completion (q : Expecting) : q.run q.completion = some nothing := by
  cases q with
  | type d => exact run_args_closers
  | args d => exact run_args_closers
  | after d => exact run_closers
  | close d => exact run_closers
  | nothing => rfl

theorem isName_of_mem_completion {name : String} (h : .name name ∈ q.completion) : IsName name := by
  cases q with
  | type d =>
      obtain rfl : name = "T" := by simpa [completion, closers] using h
      decide +kernel
  | args d | after d | close d | nothing => simp [completion, closers] at h

theorem step_of_mem_run (h : q.run ks = some r) (hk : k ∈ ks) : ∃ q r, step q k = some r := by
  induction ks generalizing q with
  | nil => cases hk
  | cons l ks ih =>
      obtain ⟨next, hnext, h⟩ := run_cons_eq_some.mp h
      rcases List.mem_cons.mp hk with rfl | hk
      · exact ⟨q, next, hnext⟩
      · exact ih h hk

/-- Nothing is expected after the end of the text, and only then. -/
theorem eq_nothing_iff (h : q.step k = some r) : r = nothing ↔ k = .eof := by
  rcases q with _ | ⟨_ | _⟩ | ⟨_ | _⟩ | _ | _ <;> cases k <;>
    simp only [step, following, closing] at h <;> grind

theorem ended_of_run (h : q.run ks = some nothing) (hks : ks ≠ []) :
    Ended (ks.map fun k => ⟨k, 0⟩) := by
  induction ks generalizing q with
  | nil => exact absurd rfl hks
  | cons k ks ih =>
      obtain ⟨next, hnext, h⟩ := run_cons_eq_some.mp h
      by_cases hk : k = .eof
      · obtain rfl := (eq_nothing_iff hnext).mpr hk
        cases ks with
        | nil =>
            subst hk
            exact .last id
        | cons l ks => cases h
      · have hrest : ks ≠ [] := by
          rintro rfl
          exact hk ((eq_nothing_iff hnext).mp (Option.some.inj h))
        have hwritten : k.Written := by
          cases k with
          | name | symbol => trivial
          | eof => exact absurd rfl hk
          | nul => simp [step_eq_none] at hnext
          | stray => simp [step_eq_none] at hnext
        exact .cons hwritten (ih h hrest)

theorem offender_of_run {ts : List Token} (h : q.run (ts.map (·.kind)) = some r) :
    q.offender ts = none := by
  induction ts generalizing q with
  | nil => rfl
  | cons t ts ih =>
      obtain ⟨next, hnext, h⟩ := run_cons_eq_some.mp h
      rw [offender_cons_some hnext]
      exact ih h

/-- Where nothing but the end of the text is expected after a type, nothing else is left. -/
theorem kinds_of_offender {s : ParserState} (hs : Parser.Ready s)
    (h : (after 0).offender s.tokens = none) : s.kinds = [.eof] := by
  obtain ⟨t, ts, htokens, -⟩ := hs.exists_cons
  have hended := hs.ended
  rw [htokens] at h hended
  have ht : t.kind = .eof := by
    by_contra ht
    have hstep : (after 0).step t.kind = none := if_neg ht
    rw [offender_cons_none hstep] at h
    cases h
  cases hended with
  | last _ => simp [ParserState.kinds, htokens, ht]
  | cons hwritten _ =>
      rw [ht] at hwritten
      exact hwritten.elim

/-- Tokens that were expected up to the end of the text are the sentence of an expression. -/
theorem exists_sentence_of_run (h : (type 0).run ks = some nothing) :
    ∃ e : Expr, e.Fits ⟨[], false⟩ ∧ ks = e.sentence ++ [.eof] := by
  let s : ParserState := ⟨ks.map fun k => ⟨k, 0⟩, []⟩
  have hkinds : s.kinds = ks := by simp [s, ParserState.kinds, Function.comp_def]
  have hks : ks ≠ [] := by
    rintro rfl
    cases h
  have hnone : ∀ k ∈ ks, k ≠ .nul ∧ k ≠ .stray ∧ k ≠ .symbol '?' := by
    intro k hk
    obtain ⟨q, r, hstep⟩ := step_of_mem_run h hk
    refine ⟨?_, ?_, ?_⟩ <;> rintro rfl <;> simp [step_eq_none] at hstep
  have hs : Parser.Ready s := by
    refine ⟨ended_of_run h hks, ⟨fun hhead => ?_, fun hhead => ?_⟩, fun t ht => ?_⟩
    · exact (hnone _ (hkinds ▸ List.mem_of_mem_head? hhead)).1 rfl
    · exact (hnone _ (hkinds ▸ List.mem_of_mem_head? hhead)).2.1 rfl
    · exact (hnone _ (hkinds ▸ List.mem_map_of_mem ht)).2.2
  have hoffender : (type 0).offender s.tokens = none := offender_of_run (hkinds.symm ▸ h)
  rcases Parser.follows_type hs with ⟨t, s', hread, hs', -, heq⟩ | ⟨e, t, -, hsome, -⟩
  · obtain ⟨e, hfits, hconsumed, -⟩ := (Parser.recognizes_type _).sound hs.ended hread
    refine ⟨e, hfits, ?_⟩
    rw [← hkinds, hconsumed.kinds, kinds_of_offender hs' (heq.symm.trans hoffender)]
  · rw [hoffender] at hsome
    cases hsome

/-- Tokens that were expected one after the other are viable. -/
theorem viable_of_run (hnames : ∀ name, .name name ∈ ks → IsName name)
    (h : (type 0).run ks = some r) : Viable ks := by
  have hrun : (type 0).run (ks ++ r.completion) = some nothing := by
    rw [run_append, h, Option.bind_some, run_completion]
  obtain ⟨e, hfits, hsentence⟩ := exists_sentence_of_run hrun
  have hplain : Plain (e.type ⟨[], false⟩ []) := by
    refine plain_of_fits hfits (fun name hname => ?_) []
    have hmem : .name name ∈ ks ++ r.completion := hsentence ▸ List.mem_append_left _ hname
    rcases List.mem_append.mp hmem with hmem | hmem
    · exact hnames name hmem
    · exact isName_of_mem_completion hmem
  have hparse := parseType_text hplain fun _ => ""
  obtain ⟨e', hspells, hfits', htype⟩ := parseType_iff.mp hparse
  have hunknowns : ∀ {e : Expr}, e.Fits ⟨[], false⟩ → ∀ name ∈ e.unknowns, name ∈ [] := by
    intro e he name hname
    rwa [unknowns_of_fits he] at hname
  obtain rfl := Expr.type_injective (hunknowns hfits) (hunknowns hfits') htype
  refine ⟨_, _, hparse, ?_⟩
  rw [tokens_iff.mpr hspells, ← hsentence]
  exact List.prefix_append ks r.completion

end Completion

end Expecting

theorem firstOffender_of_offender (hnames : ∀ t ∈ ts, ∀ name, t.kind = .name name → IsName name)
    (h : (Expecting.type 0).offender ts = some t) : FirstOffender ts t := by
  obtain ⟨before, after, r, rfl, hrun, hstep⟩ := Expecting.exists_of_offender h
  refine ⟨before, after, rfl, Expecting.viable_of_run (fun name hname => ?_) hrun,
    fun hviable => ?_⟩
  · obtain ⟨t', ht', hkind⟩ := List.mem_map.mp hname
    exact hnames t' (List.mem_append_left _ ht') name hkind
  · obtain ⟨r', hr'⟩ := Expecting.run_of_viable hviable
    rw [List.map_append, Expecting.run_append, hrun, Option.bind_some] at hr'
    simp [Expecting.run, hstep] at hr'

theorem eq_of_viable {before more after after' : List Token}
    (hviable : Viable ((before ++ more).map (·.kind)))
    (hnot : ¬Viable ((before ++ [t]).map (·.kind))) (h : t :: after = more ++ t' :: after') :
    t = t' := by
  cases more with
  | nil => exact (List.cons.inj h).1
  | cons u more =>
      obtain ⟨rfl, -⟩ := List.cons.inj h
      refine absurd (hviable.of_isPrefix ?_) hnot
      have hsplit : before ++ t :: more = before ++ [t] ++ more := by simp
      rw [hsplit]
      exact (List.prefix_append _ more).map _

/-- There is one first offender at most. -/
theorem FirstOffender.unique (h : FirstOffender ts t) (h' : FirstOffender ts t') : t = t' := by
  obtain ⟨before, after, rfl, hviable, hnot⟩ := h
  obtain ⟨before', after', heq, hviable', hnot'⟩ := h'
  rcases List.append_eq_append_iff.mp heq with ⟨more, rfl, hmore⟩ | ⟨more, rfl, hmore⟩
  · exact eq_of_viable hviable' hnot hmore
  · exact (eq_of_viable hviable hnot' hmore).symm

section Scanner

/-- Where a token of a text comes from. -/
def TokenKind.ComesFrom (gs : List Glyph) : TokenKind → Prop
  | .name text => IsName text
  | .symbol c => .char c ∈ gs
  | .eof => True
  | .nul => .char '\x00' ∈ gs
  | .stray => ∃ byte, .stray byte ∈ gs

theorem IsName.push {text : String} {c : Char} (h : IsName text) (hc : isNameRest c = true) :
    IsName (text.push c) := by
  obtain ⟨first, rest, htext, hfirst, hrest⟩ := h
  refine ⟨first, rest ++ [c], by simp [htext], hfirst, ?_⟩
  exact List.forall_mem_append.mpr ⟨hrest, List.forall_mem_singleton.mpr hc⟩

theorem comesFrom_start {gs : List Glyph} {c : Char} (hc : .char c ∈ gs) (before : Pending)
    (k : Nat) : ∀ t ∈ (before.start c k).emit, t.kind.ComesFrom gs := by
  rw [Pending.start]
  split
  · simp [Pending.emit]
  · split
    · rename_i hname
      exact List.forall_mem_singleton.mpr ⟨c, [], by simp, hname, by simp⟩
    · exact List.forall_mem_singleton.mpr hc

theorem comesFrom_scan {gs cs : List Glyph} {before : Pending} {k : Nat} (hcs : cs ⊆ gs)
    (hbefore : ∀ t ∈ before.emit, t.kind.ComesFrom gs) :
    ∀ t ∈ scan before k cs, t.kind.ComesFrom gs := by
  induction cs generalizing before k with
  | nil =>
      rw [scan]
      exact List.forall_mem_append.mpr ⟨hbefore, List.forall_mem_singleton.mpr trivial⟩
  | cons g cs ih =>
      obtain ⟨hg, hrest⟩ := List.cons_subset.mp hcs
      cases g with
      | stray byte => exact List.forall_mem_singleton.mpr ⟨byte, hg⟩
      | char c =>
          rw [scan]
          split
          · rename_i longer hlonger
            obtain ⟨text, k', rfl, hc, rfl⟩ := extend?_eq_some hlonger
            have htext : IsName text := hbefore ⟨.name text, k'⟩ List.mem_cons_self
            exact ih hrest (List.forall_mem_singleton.mpr (htext.push hc))
          · split
            · rename_i hnul
              subst hnul
              exact List.forall_mem_singleton.mpr hg
            · exact List.forall_mem_append.mpr ⟨hbefore, ih hrest (comesFrom_start hg before _)⟩

theorem comesFrom_tokens (source : Text) :
    ∀ t ∈ tokens source, t.kind.ComesFrom source.glyphs := by
  rw [tokens]
  split
  · exact List.forall_mem_singleton.mpr trivial
  · rename_i cs hmarked
    rw [hmarked]
    exact comesFrom_scan (List.subset_cons_self _ _) (by simp [Pending.emit])
  · exact comesFrom_scan (List.Subset.refl _) (by simp [Pending.emit])

/-- The tokens of a text, with a replacement character for every byte that belongs to none. -/
def scanned (source : Text) : List Token :=
  tokens (Text.ofString source.shown)

/-- Up to a byte that belongs to no character, the scanner finds the same tokens as if there were a
replacement character in its place. -/
theorem scan_shown (before : Pending) (k : Nat) (cs : List Glyph) :
    scan before k cs = scan before k (cs.map fun g => .char g.shown) ∨
      ∃ ts column, scan before k cs = ts ++ [⟨.stray, column⟩] ∧
        ts <+: scan before k (cs.map fun g => .char g.shown) := by
  induction cs generalizing before k with
  | nil => exact Or.inl rfl
  | cons g cs ih =>
      cases g with
      | stray byte => exact Or.inr ⟨[], before.column, rfl, List.nil_prefix⟩
      | char c =>
          rw [List.map_cons, Glyph.shown, scan, scan]
          split
          · exact ih _ _
          · split
            · exact Or.inl rfl
            · rcases ih (before.start c k) (if c = '\n' then 1 else k + 1) with
                heq | ⟨ts, column, heq, hts⟩
              · exact Or.inl (by rw [heq])
              · refine Or.inr ⟨before.emit ++ ts, column, by rw [heq, List.append_assoc], ?_⟩
                exact List.prefix_append_right_inj _ |>.mpr hts

theorem tokens_of_ne_mark {g : Glyph} {cs : List Glyph} (hg : g ≠ .char '\ufeff') :
    tokens ⟨g :: cs⟩ = scan (.gap 0) 1 (g :: cs) := by
  rw [tokens]
  split
  · rename_i hnil
    cases hnil
  · rename_i hmarked
    exact absurd (List.cons.inj hmarked).1 hg
  · rfl

theorem tokens_shown (source : Text) : tokens source = scanned source ∨
    ∃ ts column, tokens source = ts ++ [⟨.stray, column⟩] ∧ ts <+: scanned source := by
  obtain ⟨gs⟩ := source
  have hshown : Text.ofString (Text.shown ⟨gs⟩) = ⟨gs.map fun g => .char g.shown⟩ := by
    simp [Text.ofString, Text.shown, Function.comp_def]
  rw [scanned, hshown]
  cases gs with
  | nil => exact Or.inl rfl
  | cons g cs =>
      by_cases hg : g = .char '\ufeff'
      · subst hg
        exact scan_shown (.gap 0) 2 cs
      · have hchar : Glyph.char g.shown ≠ .char '\ufeff' := by
          cases g with
          | char c => exact hg
          | stray byte => simp [Glyph.shown]
        rw [tokens_of_ne_mark hg, List.map_cons, tokens_of_ne_mark hchar]
        exact scan_shown (.gap 0) 1 (g :: cs)

end Scanner

theorem Ended.eq_nil_of_not_written {before after : List Token} (h : Ended (before ++ t :: after))
    (ht : ¬t.kind.Written) : after = [] := by
  induction before with
  | nil =>
      cases h with
      | last _ => rfl
      | cons hwritten _ => exact absurd hwritten ht
  | cons u before ih =>
      rw [List.cons_append] at h
      generalize hrest : before ++ t :: after = rest at h
      cases h with
      | last _ => simp at hrest
      | cons _ h => exact ih (hrest ▸ h)

/-- A token that is no stray byte is found by the scanner in any case, with those before it. -/
theorem FirstOffender.scanned (h : FirstOffender (tokens source) t) (ht : t.kind ≠ .stray) :
    FirstOffender (scanned source) t := by
  obtain ⟨before, after, htokens, hviable, hnot⟩ := h
  have hprefix : before ++ [t] <+: tokens source := ⟨after, by simp [htokens]⟩
  have hscanned : before ++ [t] <+: TypeExpr.scanned source := by
    rcases tokens_shown source with heq | ⟨ts, column, heq, hts⟩
    · rwa [← heq]
    · rw [heq] at hprefix
      rcases List.prefix_concat_iff.mp hprefix with hall | hprefix
      · obtain ⟨-, hlast⟩ := List.append_inj' hall rfl
        obtain rfl := List.singleton_inj.mp hlast
        exact absurd rfl ht
      · exact hprefix.trans hts
  obtain ⟨rest, hrest⟩ := hscanned
  exact ⟨before, rest, by simpa using hrest.symm, hviable, hnot⟩

/-- The first unexpected token of a text is its first offender. -/
theorem firstOffender_tokens (h : (Expecting.type 0).offender (tokens source) = some t) :
    FirstOffender (tokens source) t := by
  refine firstOffender_of_offender (fun t ht name hname => ?_) h
  simpa [hname, TokenKind.ComesFrom] using comesFrom_tokens source t ht

/-- A failure to read a type is about the first offender, unless the scanner complains about a byte
that belongs to no character. It then has the column that the scanner gives to this byte, after
tokens that are viable. -/
theorem parseType_error_at_first_offender {e : ParseError} (hnul : .char '\x00' ∉ source.glyphs)
    (hasked : .char '?' ∉ source.glyphs) (h : parseType source = .error e) :
    e.failure.problem ≠ .nul ∧
      (e.failure.problem ≠ .stray → ∃ t, FirstOffender (scanned source) t ∧
        e.failure.column = t.column ∧ e.failure.problem.found? = some t.kind) ∧
      (e.failure.problem = .stray → (∃ byte, .stray byte ∈ source.glyphs) ∧
        ∃ before, tokens source = before ++ [⟨.stray, e.failure.column⟩] ∧
          Viable (before.map (·.kind))) := by
  have hcomes := comesFrom_tokens source
  have hnone : ∀ t ∈ tokens source, t.kind ≠ .symbol '?' := fun t ht hask =>
    hasked (by simpa [hask, TokenKind.ComesFrom] using hcomes t ht)
  obtain ⟨t, hoffender, habout⟩ := offender_of_parseType hnone h
  have hfirst : FirstOffender (tokens source) t := firstOffender_tokens hoffender
  have hscanned : t.kind ≠ .stray → FirstOffender (scanned source) t := hfirst.scanned
  obtain ⟨before, after, htokens, hviable, -⟩ := hfirst
  have hmem : t ∈ tokens source := htokens ▸ List.mem_append_right _ List.mem_cons_self
  refine ⟨fun hproblem => hnul ?_, fun hproblem => ?_, fun hproblem => ?_⟩
  · simpa [habout.nul.mp hproblem, TokenKind.ComesFrom] using hcomes t hmem
  · exact ⟨t, hscanned (mt habout.stray.mpr hproblem), habout.column, habout.found⟩
  · have hkind := habout.stray.mp hproblem
    have hended : Ended (before ++ t :: after) := htokens ▸ ended_tokens source
    have hlast : after = [] := hended.eq_nil_of_not_written (by simp [hkind, TokenKind.Written])
    refine ⟨by simpa [hkind, TokenKind.ComesFrom] using hcomes t hmem, before, ?_, hviable⟩
    rw [htokens, hlast, habout.column, ← hkind]

/-- A bracket that is not closed is missed at the end of the text. -/
theorem parseType_error_at_first_offender_unclosed :
    ∃ e, parseType "List<int" = .error e ∧
      ∃ t, FirstOffender (scanned "List<int") t ∧ e.failure.column = t.column ∧ t.column = 9 := by
  have hparse : parseType "List<int" = .error ⟨"List<int", ⟨9, .expectedSymbol '>' .eof⟩⟩ := by
    decide +kernel
  refine ⟨_, hparse, ?_⟩
  obtain ⟨-, hfirst, -⟩ := parseType_error_at_first_offender (by decide) (by decide) hparse
  obtain ⟨t, ht, hcolumn, -⟩ := hfirst (by decide)
  exact ⟨t, ht, hcolumn, hcolumn.symm⟩

/-- A name, and right after it a byte that belongs to no character. -/
def flawed : Text :=
  ⟨[.char 'i', .char 'n', .char 't', .stray 0xff]⟩

/-- The byte is the first offender, but the name before it is reported. -/
theorem stray_reported_before_first_offender :
    (.char '\x00' ∉ flawed.glyphs ∧ .char '?' ∉ flawed.glyphs) ∧
      FirstOffender (scanned flawed) ⟨.symbol '\ufffd', 4⟩ ∧
      ∃ e, parseType flawed = .error e ∧ e.failure.column = 1 ∧
        ∀ t, FirstOffender (scanned flawed) t → e.failure.column ≠ t.column := by
  have hparse : parseType flawed = .error ⟨flawed, ⟨1, .stray⟩⟩ := by decide +kernel
  have hoffender : (Expecting.type 0).offender (scanned flawed) = some ⟨.symbol '\ufffd', 4⟩ := by
    decide +kernel
  have hfirst := firstOffender_tokens hoffender
  refine ⟨by decide, hfirst, _, hparse, rfl, fun t ht => ?_⟩
  rw [← hfirst.unique ht]
  decide

end TraitResolution.TypeExpr

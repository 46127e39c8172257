import ContainerImageDistRef.Digest.Algorithm
import ContainerImageDistRef.Library.ViablePrefix

/-!
# Where the errors of an algorithm stand

Each component is parsed from the slice that begins with it. The lengths are
summed up over the components, the index of an error is not moved: it stands
where it belongs in the first component only.
-/

namespace ContainerImageDistRef

open ByteString SeparatedList ViablePrefix

namespace Algorithm

open Digest

/-- The algorithms, of any length. -/
def accepted : Language UInt8 := {w | ∃ c, Threads .universal (components w) c}

theorem Threads.append {c c' c'' : Compliance} {xs ys : List (List UInt8)} (hx : Threads c xs c')
    (hy : Threads c' ys c'') : Threads c (xs ++ ys) c'' := by
  induction hx with
  | nil c => exact hy
  | cons hx _ ih => exact .cons hx (ih hy)

/-- Algorithms are put together by a separator. -/
theorem threads_separator {c c' c'' : Compliance} {w v : List UInt8} {s : UInt8}
    (hw : Threads c (components w) c') (hs : isSeparator s = true)
    (hv : Threads c' (components v) c'') : Threads c (components (w ++ s :: v)) c'' := by
  rw [components, List.splitOnP_append_cons w v hs]
  exact hw.append hv

theorem threads_component {c c' : Compliance} {x : List UInt8} (hx : Component c c' x) :
    Threads c (components x) c' := by
  have h := threads_append hx (Or.inl ⟨rfl, rfl⟩)
  rwa [List.append_nil] at h

/-- A lowercase letter is a component under every compliance. -/
theorem component_letter (c : Compliance) : Component c c [byte 'a'] := by
  refine ⟨byte 'a', [], rfl, ?_, by simp⟩
  cases c <;> decide

/-- What a component has read before it is stuck can be completed to an algorithm. -/
theorem Stuck.viable {c : Compliance} {x : List UInt8} {b : UInt8} (h : Stuck c x b) :
    ∃ v c', Threads c (components (x ++ v)) c' := by
  cases h with
  | first => exact ⟨[byte 'a'], c, threads_component (component_letter c)⟩
  | later hx => exact ⟨[], _, (List.append_nil x).symm ▸ threads_component hx⟩

/-- A text without a separator, but perhaps at its start, begins the first component. -/
theorem component_of_viable {w : List UInt8} (hw : ∀ b ∈ w.tail, isSeparator b = false)
    (h : Viable accepted w) : ∃ v c, Component .universal c (w ++ v) := by
  obtain ⟨z, c, hz⟩ := h
  obtain ⟨x, u, d, hxu, hx, hu⟩ := exists_of_threads hz
  rcases List.append_eq_append_iff.mp hxu with ⟨v, rfl, -⟩ | ⟨v, rfl, hv⟩
  · exact ⟨v, d, hx⟩
  · cases v with
    | nil => exact ⟨[], d, by simpa using hx⟩
    | cons s v =>
      -- the component has ended at a separator
      rcases hu with ⟨rfl, -⟩ | ⟨s', u, rfl, hs, -⟩
      · cases hv
      · obtain ⟨rfl, -⟩ := List.cons.inj hv
        obtain ⟨e, x', rfl, -, -⟩ := hx
        rw [hw s' (by simp)] at hs
        cases hs

/-- No component goes on where one is stuck. -/
theorem Stuck.not_component {c c' : Compliance} {x v : List UInt8} {b : UInt8} (h : Stuck c x b) :
    ¬Component c c' (x ++ b :: v) := by
  rintro ⟨d, w, hdw, hd, hw⟩
  cases h with
  | first hb =>
    obtain ⟨rfl, -⟩ := List.cons.inj hdw
    cases hb.symm.trans hd
  | later hx _ hb =>
    obtain ⟨e, y, rfl, he, -⟩ := hx
    obtain ⟨rfl, rfl⟩ := List.cons.inj hdw
    cases he.symm.trans hd
    cases hb.symm.trans (hw b (by simp))

/-- No algorithm goes on with the byte at which its first component is stuck. -/
theorem Stuck.not_viable {x : List UInt8} {b : UInt8} (h : Stuck .universal x b) :
    ¬Viable accepted (x ++ [b]) := by
  intro hviable
  have htail : ∀ e ∈ (x ++ [b]).tail, isSeparator e = false := by
    intro e he
    cases h with
    | first => cases he
    | later hx hstop _ =>
      rcases List.mem_append.mp (List.mem_of_mem_tail he) with he | he
      · exact hx.noSeparator e he
      · rw [List.mem_singleton.mp he]
        exact (Bool.or_eq_false_iff.mp hstop).2
  obtain ⟨v, c, hcomponent⟩ := component_of_viable htail hviable
  rw [List.append_assoc] at hcomponent
  exact h.not_component hcomponent

/-- The error of a first component stands at the byte that cannot continue. -/
theorem ComponentFails.offends {w : List UInt8} {i : Nat} (h : ComponentFails .universal w i) :
    Offends accepted w i := by
  obtain ⟨x, b, rest, rfl, rfl, hstuck⟩ := h
  exact .of_stuck hstuck.viable hstuck.not_viable

/-- A later component, after `done` and a separator, fails at `i`. -/
def LaterFails (w : List UInt8) (i : Nat) : Prop :=
  ∃ done s rest c, w = done ++ s :: rest ∧ isSeparator s = true ∧
    Threads .universal (components done) c ∧ ComponentFails c rest i

/-- The place of an error in a later component is one that an algorithm has already passed. -/
theorem LaterFails.not_offends {w : List UInt8} {i : Nat} (h : LaterFails w i) :
    ¬Offends accepted w i := by
  obtain ⟨done, s, _, c, rfl, hs, hdone, x, b, rest, rfl, rfl, hstuck⟩ := h
  obtain ⟨v, c', hv⟩ := hstuck.viable
  have hviable : Viable accepted (done ++ s :: x) := by
    refine ⟨v, c', ?_⟩
    rw [List.append_assoc, List.cons_append]
    exact threads_separator hdone hs hv
  have hsplit : done ++ s :: (x ++ b :: rest) = (done ++ s :: x) ++ b :: rest := by simp
  rw [hsplit]
  apply Offends.not_of_viable hviable
  rw [List.length_append, List.length_cons]
  omega

end Algorithm

namespace AlgorithmSpan

open Digest Algorithm

/-- The kinds of error that point at no byte. -/
def Unplaced (kind : Err.Kind) : Prop := kind = .algorithmMissing ∨ kind = .algorithmTooLong

theorem tryAdd_kind (a : ShortLength) (n : Nat) :
    (tryAdd a n).Sat (fun l => a.val + n = l.val) fun e => Unplaced e.kind :=
  Outcome.sat_okOr (fun _ hl => Length.checkedAdd_eq_some.mp hl) fun _ => Or.inr rfl

theorem separator_of_stop {w : List UInt8} (hstop : StopsAt isComponentStop w)
    (hend : ¬StopsAt isEnd w) : ∃ b, w.head? = some b ∧ isSeparator b = true := by
  cases w with
  | nil => exact absurd (stopsAt_nil _) hend
  | cons b w =>
    rw [stopsAt_cons] at hstop hend
    exact ⟨b, rfl, ((Bool.or_eq_true _ _).mp hstop).resolve_left hend⟩

/-- What a turn of the loop leaves: a longer algorithm, before a colon, a separator or the end. -/
def Longer (done todo : String) (l : ShortLength) (c : Compliance) : Prop :=
  ∃ u rest, todo = u ++ rest ∧ 0 < len u ∧ l.val = len (done ++ u) ∧
    Threads .universal (components (asBytes (done ++ u))) c ∧
    StopsAt isComponentStop (asBytes rest)

theorem parseNext_fails {done todo : String} {length : ShortLength} {c : Compliance}
    (hdone : Threads .universal (components (asBytes done)) c) (hlength : length.val = len done)
    (hstop : StopsAt isComponentStop (asBytes todo)) :
    (parseNext (done ++ todo) length c).Sat
      (fun next => ∀ l c', next = some (l, c') → Longer done todo l c')
      fun e => Unplaced e.kind ∨ LaterFails (asBytes (done ++ todo)) e.index := by
  by_cases hend : StopsAt isEnd (asBytes todo)
  · rw [parseNext_end c hlength (Or.inr hend)]
    rintro l c' ⟨⟩
  by_cases hmax : maxLen (done ++ todo) ≤ len done
  · rw [parseNext, hlength, if_pos hmax]
    rintro l c' ⟨⟩
  obtain ⟨b, hhead, hb⟩ := separator_of_stop hstop hend
  obtain ⟨s, after, rfl, hs⟩ := exists_separator hhead hb
  have hcat : done ++ (s ++ after) = (done ++ s) ++ after := (String.append_assoc ..).symm
  have hds : len (done ++ s) = length.val + 1 := by rw [len_append, len_separator hs, hlength]
  rw [parseNext_separator after c hlength hs hb hmax, hcat]
  refine Outcome.Sat.bind ((tryAdd_kind length 1).mono (fun _ hl => hl) fun _ he => Or.inl he)
    fun next hnext => ?_
  have hbytes : asBytes (done ++ s ++ after) = asBytes done ++ b :: asBytes after := by
    rw [asBytes_append, asBytes_append, hs, List.append_assoc]
    rfl
  refine Outcome.Sat.bind ((component_sat after c).mono (fun _ hf => hf) ?_) fun found hfound => ?_
  · rintro e ⟨-, hkind | hfails⟩
    · exact Or.inl (Or.inr hkind)
    · exact Or.inr ⟨_, b, _, c, hbytes, hb, hdone, hfails⟩
  cases found with
  | none => exact Or.inl (Or.inl rfl)
  | some found =>
    obtain ⟨m, c'⟩ := found
    obtain ⟨x, rest, rfl, hx, hm, hrest⟩ := hfound
    rw [Outcome.okOr_some, Outcome.ok_bind]
    refine Outcome.Sat.bind ((tryAdd_kind next m.val).mono (fun _ hl => hl) fun _ he => Or.inl he)
      fun l hl => ?_
    rintro _ _ ⟨⟩
    refine ⟨s ++ x, rest, (String.append_assoc ..).symm, ?_, ?_, ?_, hrest⟩
    · rw [len_append, len_separator hs]
      omega
    · rw [← hl, ← hnext, ← hds, hm, ← len_append, String.append_assoc]
    · rw [asBytes_append, asBytes_append, hs]
      exact threads_separator hdone hb (threads_component hx)

/-- Every error of the loop is one of a later component. -/
theorem newLoop_fails {done todo : String} {length : ShortLength} {c : Compliance}
    (hdone : Threads .universal (components (asBytes done)) c) (hlength : length.val = len done)
    (hstop : StopsAt isComponentStop (asBytes todo)) :
    (newLoop (done ++ todo) length c).Sat (fun _ => True)
      fun e => Unplaced e.kind ∨ LaterFails (asBytes (done ++ todo)) e.index := by
  induction hn : len todo using Nat.strong_induction_on generalizing done todo length c with
  | _ n ih =>
    rw [newLoop_eq]
    refine Outcome.Sat.bind (parseNext_fails hdone hlength hstop) fun next hnext => ?_
    cases next with
    | none => trivial
    | some next =>
      obtain ⟨l, c'⟩ := next
      obtain ⟨u, rest, rfl, hpos, hl, hthreads, hrest⟩ := hnext l c' rfl
      rw [← String.append_assoc]
      refine ih (len rest) ?_ hthreads hl hrest rfl
      rw [← hn, len_append]
      omega

/-- The text begins with a component, which ends where a component may end. -/
def BeginsSound (src : String) : Prop :=
  ∃ x rest c, src = x ++ rest ∧ Component .universal c (asBytes x) ∧
    StopsAt isComponentStop (asBytes rest)

/-- An error is one of the first component, or the first component is sound. -/
theorem new_fails (src : String) :
    (new src).Sat (fun _ => True) fun e => Unplaced e.kind ∨
      ComponentFails .universal (asBytes src) e.index ∨
        BeginsSound src ∧ LaterFails (asBytes src) e.index := by
  refine Outcome.Sat.bind ((component_sat src .universal).mono (fun _ hf => hf) ?_)
    fun found hfound => ?_
  · rintro e ⟨-, hkind | hfails⟩
    · exact Or.inl (Or.inr hkind)
    · exact Or.inr (Or.inl hfails)
  cases found with
  | none => exact Or.inl (Or.inl rfl)
  | some found =>
    obtain ⟨l, c⟩ := found
    obtain ⟨x, rest, rfl, hx, hl, hrest⟩ := hfound
    refine (newLoop_fails (threads_component hx) hl hrest).mono (fun _ _ => trivial) ?_
    rintro e (hkind | hfails)
    · exact Or.inl hkind
    · exact Or.inr (Or.inr ⟨⟨x, rest, c, rfl, hx, hrest⟩, hfails⟩)

end AlgorithmSpan

namespace Algorithm

open Digest

/-- The bytes before the first colon or separator. -/
def firstPart (w : List UInt8) : List UInt8 := w.takeWhile fun b => !isComponentStop b

/-- A first component: letters and digits, and no uppercase letter where it begins with a
digit. -/
structure FirstSound (x : List UInt8) : Prop where
  ne_nil : x ≠ []
  alnum : ∀ b ∈ x, isAlnum b = true
  lower : x.head?.any isDigit = true → ∀ b ∈ x, isUpper b = false

theorem component_universal_iff {x : List UInt8} :
    (∃ c, Component .universal c x) ↔ FirstSound x := by
  have hfirst : ∀ d, isAlnum d = true → firstCompliance .universal d =
      .ok (if isDigit d then .oci else if isUpper d then .distribution else .universal) :=
    forall_byte (by decide)
  have hcheck : ∀ c b, isAlnum b = true →
      (checkByte c b = .ok () ↔ c = .oci → isUpper b = false) := by
    intro c
    cases c <;> exact forall_byte (by decide)
  have hdisjoint : ∀ d, isDigit d = true → isUpper d = false := forall_byte (by decide)
  constructor
  · rintro ⟨c, hx⟩
    have halnum := hx.alnum
    obtain ⟨d, w, rfl, hd, hw⟩ := hx
    refine ⟨List.cons_ne_nil d w, halnum, fun hdigit => ?_⟩
    have hoci : c = .oci := by
      rw [hfirst d (halnum d (by simp))] at hd
      exact (Outcome.ok.inj hd).symm.trans (if_pos hdigit)
    intro b hb
    rcases List.mem_cons.mp hb with rfl | hmem
    · exact hdisjoint b hdigit
    · exact (hcheck c b (halnum b hb)).mp (hw b hmem) hoci
  · rintro ⟨hne, halnum, hlower⟩
    cases x with
    | nil => exact absurd rfl hne
    | cons d w =>
      refine ⟨_, d, w, rfl, hfirst d (halnum d (by simp)), fun b hb => ?_⟩
      have hmem : b ∈ d :: w := List.mem_cons_of_mem d hb
      refine (hcheck _ b (halnum b hmem)).mpr fun hoci => hlower ?_ b hmem
      by_contra hdigit
      change ¬isDigit d = true at hdigit
      rw [if_neg hdigit] at hoci
      split at hoci <;> cases hoci

theorem firstPart_append {c c' : Compliance} {x u : List UInt8} (hx : Component c c' x)
    (hu : StopsAt isComponentStop u) : firstPart (x ++ u) = x :=
  before_append (fun b hb => (isComponentStop_of_isAlnum b (hx.alnum b hb)).1) hu

/-- Where a component fails, the bytes before the first colon or separator are not one. -/
theorem ComponentFails.not_firstSound {w : List UInt8} {i : Nat}
    (h : ComponentFails .universal w i) : ¬FirstSound (firstPart w) := by
  rw [← component_universal_iff]
  rintro ⟨c, hc⟩
  obtain ⟨x, b, rest, rfl, -, hstuck⟩ := h
  by_cases hb : isComponentStop b = true
  · cases hstuck with
    | first =>
      obtain ⟨d, v, hnil, -⟩ := hc
      rw [List.nil_append, firstPart, List.takeWhile_cons_of_neg (by simp [hb])] at hnil
      cases hnil
    | later _ hstop => exact absurd hb (Bool.eq_false_iff.mp hstop)
  · have hx : ∀ e ∈ x, (!isComponentStop e) = true := by
      intro e he
      cases hstuck with
      | first => cases he
      | later hx => rw [(isComponentStop_of_isAlnum e (hx.alnum e he)).1]; rfl
    rw [firstPart, List.takeWhile_append_of_pos hx, List.takeWhile_cons_of_pos (by simp [hb])] at hc
    exact hstuck.not_component hc

theorem firstSound_of_begins {src : String} (h : AlgorithmSpan.BeginsSound src) :
    FirstSound (firstPart (asBytes src)) := by
  obtain ⟨x, rest, c, rfl, hx, hrest⟩ := h
  rw [asBytes_append, firstPart_append hx hrest]
  exact component_universal_iff.mp ⟨c, hx⟩

/-- The errors of an algorithm are those of its span. -/
theorem span_of_new_err {src : String} {e : Error} (h : new src = .err e) :
    AlgorithmSpan.new src = .err e := by
  rcases Outcome.bind_eq_err.mp h with h | ⟨⟨span, c⟩, hspan, h⟩
  · exact h
  · obtain ⟨a, rest, rfl, -, hlen, -⟩ := (AlgorithmSpan.new_sat src).of_ok hspan
    have hnew := new_of_span hspan hlen
    rw [new, hspan, Outcome.ok_bind, h] at hnew
    cases hnew

/-- An error at a byte stands where it belongs in the first component, and nowhere else. -/
theorem error_index_iff {src : String} {e : Error} (h : new src = .err e)
    (hkind : e.kind = .algorithmInvalidChar ∨ e.kind = .invalidOciAlgorithm ∨
      e.kind = .algorithmInvalidNumericPrefix) :
    Offends accepted (asBytes src) e.index ↔ ¬FirstSound (firstPart (asBytes src)) := by
  have hplaced : ¬AlgorithmSpan.Unplaced e.kind := by
    rintro (hk | hk) <;> rw [hk] at hkind <;> simp at hkind
  rcases (AlgorithmSpan.new_fails src).of_err (span_of_new_err h) with hunplaced | hfirst | hlater
  · exact absurd hunplaced hplaced
  · exact iff_of_true hfirst.offends hfirst.not_firstSound
  · exact iff_of_false hlater.2.not_offends (not_not_intro (firstSound_of_begins hlater.1))

theorem error_index_iff_digit :
    new "1B" = .err ⟨1, .invalidOciAlgorithm⟩ ∧ Offends accepted (asBytes "1B") 1 := by
  have h : new "1B" = .err ⟨1, .invalidOciAlgorithm⟩ := by decide +kernel
  refine ⟨h, (error_index_iff h (Or.inr (Or.inl rfl))).mpr fun hsound => ?_⟩
  exact absurd (hsound.lower rfl (byte 'B') (by decide)) (by decide)

/-- The error of the second component stands at the start of the first. -/
theorem error_index_fails :
    new "a+!" = .err ⟨0, .algorithmInvalidChar⟩ ∧ ¬Offends accepted (asBytes "a+!") 0 := by
  refine ⟨by decide +kernel, ?_⟩
  have ha : Viable accepted [byte 'a'] :=
    .of_mem ⟨_, threads_component (component_letter .universal)⟩
  exact Offends.not_of_viable (v := asBytes "+!") ha (by decide)

end Algorithm

end ContainerImageDistRef

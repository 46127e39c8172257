import ContainerImageDistRef.Name.PathLanguage

/-!
# Where a path goes wrong

An invalid byte in some component of a path is reported at its own place in the
source: the two places where an index is moved right keep the kind of the error
only if the sum is exact.
-/

namespace ContainerImageDistRef

open ByteString Grammar ViablePrefix HostOrPath

namespace Grammar

/-- What begins a path and has no slash begins its first component. -/
theorem viable_component {u : List UInt8} (h : Viable Grammar.path u) (hu : byte '/' ∉ u) :
    Viable pathComponent u := by
  obtain ⟨v, hv⟩ := h
  obtain ⟨r, hr, hstop⟩ := exists_before (· == byte '/') v
  have hslash : byte '/' ∉ u ++ before (· == byte '/') v := by
    intro hmem
    rcases List.mem_append.mp hmem with hmem | hmem
    · exact hu hmem
    · have hnot := eq_false_of_mem_before hmem
      simp at hnot
  refine ⟨before (· == byte '/') v, mem_pathComponent_of_path ?_ hslash⟩
  rw [hr, ← List.append_assoc] at hv
  cases r with
  | nil => rwa [List.append_nil] at hv
  | cons c r =>
    obtain rfl : c = byte '/' := by simpa using hstop
    exact (path_slash_iff.mp hv).1

end Grammar

namespace HostOrPath.StuckAt
variable {w : List UInt8} {i : Nat}

theorem viable (h : StuckAt .path w i) : Viable pathComponent (w.take i) := by
  obtain ⟨v, hv⟩ := h.offends.before
  exact ⟨v, hv.elim (fun hu => hu.2) fun hu => absurd rfl hu.1⟩

theorem slash_not_mem (h : StuckAt .path w i) : byte '/' ∉ w.take (i + 1) := by
  rw [List.take_add_one]
  intro hmem
  rcases List.mem_append.mp hmem with hmem | hmem
  · obtain ⟨v, hv⟩ := h.viable
    exact slash_not_mem_pathComponent hv (List.mem_append_left v hmem)
  · cases h.inside (byte '/') (Option.mem_toList.mp hmem)

/-- A byte that no component goes on with is one that no path goes on with. -/
theorem offends_path (h : StuckAt .path w i) : Offends Grammar.path w i := by
  refine ⟨h.offends.lt, ?_, ?_⟩
  · obtain ⟨v, hv⟩ := h.viable
    exact ⟨v, SeparatedList.mem_sepBy_of_mem hv⟩
  · intro hviable
    obtain ⟨v, hv⟩ := viable_component hviable h.slash_not_mem
    exact h.offends.here ⟨v, Or.inl ⟨by simp, hv⟩⟩

end HostOrPath.StuckAt

namespace PathSpan

open ContainerImageDistRef.Path

/-- After a path and a slash another path begins. -/
theorem offends_slash {u v : String} {i : Nat} (hu : asBytes u ∈ Grammar.path)
    (h : Offends Grammar.path (asBytes v) i) :
    Offends Grammar.path (asBytes (u ++ "/" ++ v)) (len u + 1 + i) := by
  have hcut : ∀ w, asBytes (u ++ "/") ++ w ∈ Grammar.path ↔ w ∈ Grammar.path := by
    intro w
    rw [asBytes_append, List.append_assoc]
    exact path_slash_iff.trans (and_iff_right hu)
  rw [asBytes_append]
  have hoffends := Offends.append hcut h
  rwa [length_asBytes, len_append] at hoffends

theorem parseComponent_err {src : String} {e : Error} (h : parseComponent src = .err e)
    (hkind : e.kind = .pathInvalidChar) : Offends Grammar.path (asBytes src) e.index :=
  (((parseComponent_sat src).of_err h).2.2 hkind).offends_path

/-- A component has ended: what goes on is a slash. -/
theorem exists_slash {todo : String} (hstop : StopsAt isStop (asBytes todo))
    (hend : ¬StopsAt isEnd (asBytes todo)) : ∃ after, todo = "/" ++ after := by
  cases hhead : (asBytes todo).head? with
  | none => exact absurd (stopsAt_of_head?_none hhead) hend
  | some c =>
    have hclass : ∀ c, isStop c = true → isEnd c = false → c = byte '/' :=
      forall_byte (by decide)
    have hc : isEnd c = false := Bool.eq_false_iff.mpr fun hc => hend (stopsAt_of_head? hhead hc)
    obtain rfl := hclass c (hstop c hhead) hc
    exact exists_append_of_head "/" hhead rfl (by decide)

/-- A turn of the loop finds an invalid byte in the component after a slash. -/
theorem parseNext_err {done todo : String} {e : Error} (hstop : StopsAt isStop (asBytes todo))
    (h : parseNext (done ++ todo) (len done) = .err e) (hkind : e.kind = .pathInvalidChar) :
    ∃ after i, todo = "/" ++ after ∧ Offends Grammar.path (asBytes after) i ∧
      e.index = len done + 1 + i := by
  by_cases hend : StopsAt isEnd (asBytes todo)
  · cases (parseNext_end done hend).symm.trans h
  obtain ⟨after, rfl⟩ := exists_slash hstop hend
  rw [parseNext_slash] at h
  rcases Outcome.bind_eq_err.mp h with h | ⟨index, hindex, h⟩
  · obtain ⟨-, rfl⟩ := Outcome.okOr_eq_err.mp h
    cases hkind
  obtain ⟨-, rfl⟩ := checkedAddU8_eq_some.mp (Outcome.okOr_eq_ok.mp hindex)
  rcases Outcome.bind_eq_err.mp h with h | ⟨component, -, h⟩
  · obtain ⟨e', he', rfl⟩ := Outcome.mapErr_eq_err.mp h
    obtain ⟨hkind', hrebased⟩ := rebase_invalidChar hkind
    have hcomponent : e'.kind = .pathInvalidChar := by
      split at hkind'
      · cases hkind'
      · exact hkind'
    exact ⟨after, e'.index, rfl, parseComponent_err he' hcomponent, hrebased⟩
  · rcases Outcome.bind_eq_err.mp h with h | ⟨_, _, h⟩
    · obtain ⟨-, rfl⟩ := Outcome.okOr_eq_err.mp h
      cases hkind
    · cases h

/-- A turn that goes on has read a slash and a component to its end. -/
theorem parseNext_some {done todo : String} {i : Nat} (hstop : StopsAt isStop (asBytes todo))
    (h : parseNext (done ++ todo) (len done) = .ok (some i)) :
    ∃ u rest, todo = "/" ++ u ++ rest ∧ asBytes u ∈ pathComponent ∧
      i = len (done ++ "/" ++ u) ∧ StopsAt isStop (asBytes rest) := by
  by_cases hend : StopsAt isEnd (asBytes todo)
  · cases (parseNext_end done hend).symm.trans h
  obtain ⟨after, rfl⟩ := exists_slash hstop hend
  rw [parseNext_slash] at h
  obtain ⟨index, hindex, h⟩ := Outcome.bind_eq_ok.mp h
  obtain ⟨component, hcomponent, h⟩ := Outcome.bind_eq_ok.mp h
  obtain ⟨j, hj, h⟩ := Outcome.bind_eq_ok.mp h
  cases h
  obtain ⟨u, rest, rfl, hu, hlen, hrest⟩ :=
    (parseComponent_sat after).of_ok (Outcome.mapErr_eq_ok.mp hcomponent)
  refine ⟨u, rest, (String.append_assoc ..).symm, hu, ?_, hrest⟩
  rw [len_append, len_append, ← hlen, ← (checkedAddU8_eq_some.mp (Outcome.okOr_eq_ok.mp hj)).2,
    ← (checkedAddU8_eq_some.mp (Outcome.okOr_eq_ok.mp hindex)).2]
  rfl

/-- An invalid byte in `todo`, in a component after the slash behind `v`. -/
def FailsAfter (offset : Nat) (todo : String) (e : Error) : Prop :=
  ∃ v after i, todo = v ++ "/" ++ after ∧ asBytes v ∈ pathRest ∧
    Offends Grammar.path (asBytes after) i ∧ e.index = offset + len v + 1 + i

/-- The induction is on what is left to read. -/
theorem parseFromSlashLoop_err {done todo : String} {e : Error}
    (hstop : StopsAt isStop (asBytes todo))
    (h : parseFromSlashLoop (done ++ todo) (len done) = .err e)
    (hkind : e.kind = .pathInvalidChar) : FailsAfter (len done) todo e := by
  induction hn : len todo using Nat.strong_induction_on generalizing done todo with
  | _ n ih =>
    rw [parseFromSlashLoop_eq] at h
    rcases Outcome.bind_eq_err.mp h with h | ⟨next, hnext, h⟩
    · obtain ⟨after, i, rfl, hoffends, hindex⟩ := parseNext_err hstop h hkind
      exact ⟨"", after, i, by rw [String.empty_append], Language.nil_mem_kstar _, hoffends, hindex⟩
    · cases next with
      | none => cases h
      | some j =>
        obtain ⟨u, rest, rfl, hu, rfl, hrest⟩ := parseNext_some hstop hnext
        have hcat : done ++ ("/" ++ u ++ rest) = (done ++ "/" ++ u) ++ rest := by
          simp only [String.append_assoc]
        dsimp only at h
        rw [hcat] at h
        obtain ⟨v, after, i, rfl, hv, hoffends, hindex⟩ :=
          ih (len rest) (hn ▸ len_after_component u rest) hrest h rfl
        refine ⟨"/" ++ u ++ v, after, i, ?_, slash_mem_rest hu hv, hoffends, ?_⟩
        · simp only [String.append_assoc]
        · rw [hindex]
          simp only [len_append]
          omega

theorem extend_err {done rest : String} {span : PathSpan} {e : Error}
    (hspan : span.length.val = len done) (hstop : StopsAt isStop (asBytes rest))
    (h : span.extend rest = .err e) (hkind : e.kind = .pathInvalidChar) :
    FailsAfter (len done) rest e := by
  rcases Outcome.bind_eq_err.mp h with h | ⟨extension, -, h⟩
  · obtain ⟨e', he', rfl⟩ := Outcome.mapErr_eq_err.mp h
    obtain ⟨hkind', hrebased⟩ := rebase_invalidChar hkind
    rcases Outcome.bind_eq_err.mp he' with he' | ⟨_, _, he'⟩
    · rw [← String.empty_append (s := rest), ← len_empty] at he'
      obtain ⟨v, after, i, hv, hrest, hoffends, hindex⟩ :=
        parseFromSlashLoop_err hstop he' hkind'
      refine ⟨v, after, i, hv, hrest, hoffends, ?_⟩
      rw [hrebased, hindex, hspan, len_empty]
      omega
    · cases he'
  · rcases Outcome.bind_eq_err.mp h with h | ⟨_, _, h⟩
    · obtain ⟨-, rfl⟩ := Outcome.okOr_eq_err.mp h
      cases hkind
    · cases h

/-- An invalid byte is the first that no path goes on with. -/
theorem invalidChar_offends {src : String} {e : Error} (h : new src = .err e)
    (hkind : e.kind = .pathInvalidChar) : Offends Grammar.path (asBytes src) e.index := by
  rcases Outcome.bind_eq_err.mp h with h | ⟨first, hfirst, h⟩
  · exact parseComponent_err h hkind
  obtain ⟨u, rest, rfl, hu, hlen, hstop⟩ := (parseComponent_sat src).of_ok hfirst
  rw [hlen, sliceFrom_append, Outcome.ok_bind] at h
  obtain ⟨v, after, i, rfl, hv, hoffends, hindex⟩ := extend_err hlen hstop h hkind
  have hcat : u ++ (v ++ "/" ++ after) = (u ++ v) ++ "/" ++ after := by
    simp only [String.append_assoc]
  rw [hcat, hindex, ← len_append]
  exact offends_slash (append_mem_path hu hv) hoffends

/-- The byte after two underscores of a component is the third one. -/
theorem invalidChar_offends_underscores :
    new "a/b___c" = .err ⟨5, .pathInvalidChar⟩ ∧ Offends Grammar.path (asBytes "a/b___c") 5 := by
  have herr : new "a/b___c" = .err ⟨5, .pathInvalidChar⟩ := by decide +kernel
  exact ⟨herr, invalidChar_offends herr rfl⟩

end PathSpan

end ContainerImageDistRef

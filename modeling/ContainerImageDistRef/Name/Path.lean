import ContainerImageDistRef.Ambiguous.Segment

/-! # Paths -/

namespace ContainerImageDistRef

open ByteString Grammar

universe u

namespace Path

/-- adapt ambiguous error kinds into path-specific error kinds -/
def mapError (e : Error) : Error :=
  match e.kind with
  | .hostOrPathMissing => ⟨e.index, .pathMissing⟩
  | .hostOrPathInvalidChar => ⟨e.index, .pathInvalidChar⟩
  | .hostOrPathTooLong => ⟨e.index, .pathTooLong⟩
  | kind => ⟨e.index, kind⟩

def errPathTooLong : Error := ⟨maxU8, .pathTooLong⟩

/-- The error moved right by `offset`, unless its index no longer fits a u8. -/
def rebase (e : Error) (offset : Nat) (kind : Err.Kind) : Error :=
  match checkedAddU8 e.index offset with
  | some i => ⟨i, kind⟩
  | none => errPathTooLong

theorem mapError_index (e : Error) : (mapError e).index = e.index := by
  rw [mapError]
  split <;> rfl

/-- An error that does not name a byte stays one. -/
theorem mapError_unplaced {e : Error} (h : HostOrPathSpan.Unplaced e.kind) :
    (mapError e).kind ≠ .pathInvalidChar := by
  rw [mapError]
  rcases h with h | h | h <;> rw [h] <;> simp

/-- A byte called invalid has been counted from the start. -/
theorem rebase_invalidChar {e : Error} {offset : Nat} {kind : Err.Kind}
    (h : (rebase e offset kind).kind = .pathInvalidChar) :
    kind = .pathInvalidChar ∧ (rebase e offset kind).index = offset + e.index := by
  rw [rebase] at h ⊢
  split at h
  · rename_i i hi
    obtain ⟨-, rfl⟩ := checkedAddU8_eq_some.mp hi
    exact ⟨h, Nat.add_comm _ _⟩
  · cases h

end Path

structure PathSpan where
  length : ShortLength
  deriving DecidableEq, Repr

namespace PathSpan

open ContainerImageDistRef.Path

/-- `TryFrom<HostOrPathSpan>` -/
def tryFrom (ambiguous : HostOrPathSpan) : Outcome Error PathSpan := do
  let disambiguated ← ambiguous.narrow .path
  .ok ⟨disambiguated.length⟩

def parseComponent (src : String) : Outcome Error PathSpan := do
  let ambiguous ← (HostOrPathSpan.new src .path).mapErr mapError
  tryFrom ambiguous

/-- A slash and a component, if there is one more; `none` ends the loop. -/
def parseNext (src : String) (index : Nat) : Outcome Error (Option Nat) :=
  match (asBytes src)[index]? with
  | none => .ok none
  | some c =>
    if c = byte '/' then do
      let index ← Outcome.okOr (checkedAddU8 index 1) ⟨index, .pathTooLong⟩
      let rest ← sliceFrom src index
      let component ← (parseComponent rest).mapErr fun e =>
        rebase e index (if e.kind = .pathMissing then .pathComponentInvalidEnd else e.kind)
      let index ← Outcome.okOr (checkedAddU8 index component.length.val) errPathTooLong
      .ok (some index)
    else if c = byte ':' ∨ c = byte '@' then .ok none
    else .err ⟨index, .pathInvalidChar⟩

theorem parseNext_lt {src : String} {index next : Nat}
    (h : parseNext src index = .ok (some next)) : index < next ∧ index < len src := by
  rw [parseNext] at h
  split at h
  · cases h
  · rename_i c hc
    have hlt : index < len src := (List.getElem?_eq_some_iff.mp hc).1
    split at h
    · obtain ⟨i, hi, h⟩ := Outcome.bind_eq_ok.mp h
      obtain ⟨rest, -, h⟩ := Outcome.bind_eq_ok.mp h
      obtain ⟨component, -, h⟩ := Outcome.bind_eq_ok.mp h
      obtain ⟨j, hj, h⟩ := Outcome.bind_eq_ok.mp h
      cases h
      have h1 := checkedAddU8_eq_some.mp (Outcome.okOr_eq_ok.mp hi)
      have h2 := checkedAddU8_eq_some.mp (Outcome.okOr_eq_ok.mp hj)
      exact ⟨by omega, hlt⟩
    · split at h <;> cases h

/-- The loop of `parse_from_slash`. Every turn moves the index right. -/
def parseFromSlashLoop (src : String) (index : Nat) : Outcome Error Nat :=
  match _h : parseNext src index with
  | .ok none => .ok index
  | .ok (some next) => parseFromSlashLoop src next
  | .err e => .err e
  | .panic p => .panic p
termination_by len src - index
decreasing_by
  have := parseNext_lt _h
  omega

def parseFromSlash (src : String) : Outcome Error (Option PathSpan) := do
  let index ← parseFromSlashLoop src 0
  .ok ((ShortLength.new index).map PathSpan.mk)

def extend (span : PathSpan) (rest : String) : Outcome Error PathSpan := do
  let extension ← (parseFromSlash rest).mapErr fun e => rebase e span.length.val e.kind
  let len ← Outcome.okOr
    (span.length.checkedAdd ((extension.map fun e => e.length.val).getD 0)) errPathTooLong
  .ok ⟨len⟩

def new (src : String) : Outcome Error PathSpan := do
  let firstComponent ← parseComponent src
  let rest ← sliceFrom src firstComponent.length.val
  firstComponent.extend rest

end PathSpan

namespace PathSpan

open ContainerImageDistRef.Path HostOrPath

/-- A segment is a path component unless an uppercase letter made it a host. -/
theorem tryFrom_sat {f : Flavor} {u : String} {span : HostOrPathSpan} (h : span.Spans f u) :
    (tryFrom span).Sat (fun p => p.length.val = len u ∧ asBytes u ∈ Grammar.pathComponent)
      fun e => e.index ≤ len u := by
  rw [tryFrom, HostOrPathSpan.narrow.eq_def, h.kind]
  cases hf : flavorOf f (asBytes u) with
  | neutral => exact ⟨h.length, h.path (by simp [hf])⟩
  | path => exact ⟨h.length, h.path (by simp [hf])⟩
  | host => exact h.decider_le

theorem tryFrom_ok {f : Flavor} {u : String} {span : HostOrPathSpan} (h : span.Spans f u)
    (hu : flavorOf f (asBytes u) ≠ .host) : tryFrom span = .ok ⟨span.length⟩ := by
  rw [tryFrom, HostOrPathSpan.narrow.eq_def, h.kind]
  cases hf : flavorOf f (asBytes u) with
  | neutral => rfl
  | path =>
    have hk : span.kind = .path := by rw [h.kind, hf]; rfl
    rfl
  | host => exact absurd hf hu

/-- A component ends at a stop byte. A byte that is called invalid is one that no
component goes on with. -/
theorem parseComponent_sat (src : String) :
    (parseComponent src).Sat
      (fun p => ∃ u rest, src = u ++ rest ∧ asBytes u ∈ pathComponent ∧
        p.length.val = len u ∧ StopsAt isStop (asBytes rest))
      fun e => AsciiUpTo src e.index ∧ e.index ≤ maxU8 ∧
        (e.kind = .pathInvalidChar → StuckAt .path (asBytes src) e.index) := by
  refine Outcome.Sat.bind ((HostOrPathSpan.new_path_sat src).mapErr fun e he => ?_)
    fun span => ?_
  · rw [mapError_index]
    refine ⟨he.ascii, he.le, fun hkind => he.stuck.resolve_left fun hun => ?_⟩
    exact mapError_unplaced hun hkind
  · rintro ⟨u, rest, rfl, hstop, hspan⟩
    rw [tryFrom_ok hspan (by simp [flavorOf])]
    exact ⟨u, rest, rfl, hspan.path (by simp [flavorOf]), hspan.length, hstop⟩

theorem parseComponent_ok {u rest : String} (h : asBytes u ∈ pathComponent)
    (hlen : len u ≤ maxU8) (hstop : StopsAt isStop (asBytes rest)) :
    ∃ p, parseComponent (u ++ rest) = .ok p ∧ p.length.val = len u := by
  have hseg : Segment Kind.path.flavor (asBytes u) := Or.inl ⟨by simp [Kind.flavor], h⟩
  obtain ⟨span, hspan, hspans⟩ :=
    HostOrPathSpan.new_segment .path rest (by simp) hseg hlen hstop
  refine ⟨⟨span.length⟩, ?_, hspans.length⟩
  rw [parseComponent, hspan, Outcome.mapErr_ok, Outcome.ok_bind]
  exact tryFrom_ok hspans (flavorOf_ne_host (by simp [Kind.flavor]) h)

/-- The bytes a path ends at. -/
def isEnd (c : UInt8) : Bool := c == byte ':' || c == byte '@'

theorem isStop_of_isEnd (c : UInt8) (h : isEnd c = true) : isStop c = true := by
  simp only [isEnd, isStop, Bool.or_eq_true] at h ⊢
  tauto

/-- What a turn of the loop has read: nothing at the end of the path, or a slash
and a component. -/
def Next (done todo : String) : Option Nat → Prop
  | none => StopsAt isEnd (asBytes todo)
  | some i => ∃ u rest, todo = "/" ++ u ++ rest ∧ asBytes u ∈ pathComponent ∧
      i = len done + 1 + len u ∧ i ≤ maxU8

theorem rebase_sat {s : String} {e : Error} {offset : Nat} (kind : Err.Kind)
    (h : AsciiUpTo s (offset + e.index)) : AsciiUpTo s (rebase e offset kind).index := by
  rw [rebase]
  split
  · rename_i i hi
    obtain ⟨-, rfl⟩ := checkedAddU8_eq_some.mp hi
    rwa [Nat.add_comm] at h
  · rename_i hi
    have hover := checkedAddU8_eq_none.mp hi
    exact h.mono (by simp only [errPathTooLong]; omega)

theorem rebase_le (e : Error) (offset : Nat) (kind : Err.Kind) :
    (rebase e offset kind).index ≤ maxU8 := by
  rw [rebase]
  split
  · rename_i i hi
    exact (checkedAddU8_eq_some.mp hi).2 ▸ (checkedAddU8_eq_some.mp hi).1
  · exact Nat.le_refl _

/-- After a slash there is a component. -/
theorem parseNext_slash (done after : String) :
    parseNext (done ++ ("/" ++ after)) (len done) = (do
      let index ← Outcome.okOr (checkedAddU8 (len done) 1) ⟨len done, .pathTooLong⟩
      let component ← (parseComponent after).mapErr fun e =>
        rebase e index (if e.kind = .pathMissing then .pathComponentInvalidEnd else e.kind)
      let index ← Outcome.okOr (checkedAddU8 index component.length.val) errPathTooLong
      .ok (some index)) := by
  have hhead : (asBytes ("/" ++ after)).head? = some (byte '/') := head?_sep "/" rfl after
  have hcat : done ++ ("/" ++ after) = (done ++ "/") ++ after := (String.append_assoc ..).symm
  rw [parseNext, getElem?_append_len, hhead]
  dsimp only
  rw [if_pos rfl]
  cases hadd : checkedAddU8 (len done) 1 with
  | none => rfl
  | some index =>
    obtain rfl : len (done ++ "/") = index := by
      rw [← (checkedAddU8_eq_some.mp hadd).2]
      exact len_append done "/"
    rw [Outcome.okOr_some, Outcome.ok_bind, Outcome.ok_bind, hcat, sliceFrom_append,
      Outcome.ok_bind]

theorem ascii_slash {done : String} (hdone : AsciiUpTo done (len done)) :
    AsciiUpTo (done ++ "/") (len (done ++ "/")) := by
  rw [len_append]
  exact hdone.append (by decide)

theorem ascii_component {u : String} (hu : asBytes u ∈ pathComponent) : IsAscii u :=
  fun c hc => ascii_of_isComponentByte c (isComponentByte_of_mem hu c hc)

/-- After a slash there is a component, and its end is counted in a u8. -/
theorem parseNext_slash_sat {done : String} (after : String) (hdone : AsciiUpTo done (len done)) :
    (parseNext (done ++ ("/" ++ after)) (len done)).Sat (Next done ("/" ++ after))
      fun e => AsciiUpTo (done ++ ("/" ++ after)) e.index := by
  have hcat : done ++ ("/" ++ after) = (done ++ "/") ++ after := (String.append_assoc ..).symm
  have hlen : len (done ++ "/") = len done + 1 := len_append done "/"
  have hascii := ascii_slash hdone
  rw [parseNext_slash]
  refine Outcome.Sat.bind (P := fun i => i = len (done ++ "/"))
    (Outcome.sat_okOr (fun i hi => ?_) fun _ => hdone.append_right _) ?_
  · rw [hlen, (checkedAddU8_eq_some.mp hi).2]
  rintro _ rfl
  rw [hcat]
  refine Outcome.Sat.bind ((parseComponent_sat after).mapErr fun e he => ?_) fun p => ?_
  · exact rebase_sat _ (hascii.append he.1)
  rintro ⟨u, rest, rfl, hu, hp, -⟩
  refine Outcome.Sat.bind (P := fun i => len done + 1 + len u ≤ maxU8 ∧
    i = len done + 1 + len u) (Outcome.sat_okOr (fun i hi => ?_) fun hi => ?_) ?_
  · obtain ⟨h1, h2⟩ := checkedAddU8_eq_some.mp hi
    rw [hlen, hp] at h1 h2
    exact ⟨h1, h2.symm⟩
  · -- the component ends past what a u8 can count
    have hover := checkedAddU8_eq_none.mp hi
    refine (hascii.append ((ascii_component hu).upTo.append_right rest)).mono ?_
    simp only [errPathTooLong]
    omega
  · rintro _ ⟨hmax, rfl⟩
    exact ⟨u, rest, (String.append_assoc ..).symm, hu, rfl, hmax⟩

theorem parseNext_sat {done : String} (todo : String) (hdone : AsciiUpTo done (len done)) :
    (parseNext (done ++ todo) (len done)).Sat (Next done todo)
      fun e => AsciiUpTo (done ++ todo) e.index := by
  by_cases hslash : (asBytes todo).head? = some (byte '/')
  · obtain ⟨after, rfl⟩ := exists_append_of_head "/" hslash rfl (by decide)
    exact parseNext_slash_sat after hdone
  rw [parseNext, getElem?_append_len]
  cases hhead : (asBytes todo).head? with
  | none => exact stopsAt_of_head?_none hhead
  | some c =>
    have hc : c ≠ byte '/' := by
      rintro rfl
      exact hslash hhead
    dsimp only
    rw [if_neg hc]
    split
    · rename_i hend
      exact stopsAt_of_head? hhead (by simpa [isEnd] using hend)
    · exact hdone.append_right todo

/-- At the end of the path the loop stops. -/
theorem parseNext_end (done : String) {rest : String} (hstop : StopsAt isEnd (asBytes rest)) :
    parseNext (done ++ rest) (len done) = .ok none := by
  rw [parseNext, getElem?_append_len]
  cases hhead : (asBytes rest).head? with
  | none => rfl
  | some c =>
    have hend : c = byte ':' ∨ c = byte '@' := by simpa [isEnd] using hstop c hhead
    have hslash : c ≠ byte '/' := by
      rintro rfl
      exact absurd hend (by decide)
    dsimp only
    rw [if_neg hslash, if_pos hend]

/-- A slash and a component that a u8 can count are read. -/
theorem parseNext_ok (done : String) {u rest : String} (hu : asBytes u ∈ pathComponent)
    (hlen : len (done ++ "/" ++ u) ≤ maxU8) (hstop : StopsAt isStop (asBytes rest)) :
    parseNext (done ++ ("/" ++ u ++ rest)) (len done) = .ok (some (len (done ++ "/" ++ u))) := by
  have hslash : len (done ++ "/") = len done + 1 := len_append done "/"
  rw [len_append] at hlen
  obtain ⟨p, hp, hplen⟩ := parseComponent_ok hu (by omega) hstop
  have hadd : checkedAddU8 (len done) 1 = some (len (done ++ "/")) :=
    checkedAddU8_eq_some.mpr ⟨by omega, hslash.symm⟩
  have hadd' : checkedAddU8 (len (done ++ "/")) p.length.val = some (len (done ++ "/" ++ u)) :=
    checkedAddU8_eq_some.mpr ⟨by omega, by rw [hplen, len_append (done ++ "/")]⟩
  rw [String.append_assoc, parseNext_slash, hadd, Outcome.okOr_some, Outcome.ok_bind, hp,
    Outcome.mapErr_ok, Outcome.ok_bind, hadd', Outcome.okOr_some, Outcome.ok_bind]

theorem parseFromSlashLoop_eq (src : String) (index : Nat) :
    parseFromSlashLoop src index = parseNext src index >>= fun next =>
      match next with
      | none => .ok index
      | some next => parseFromSlashLoop src next := by
  rw [parseFromSlashLoop]
  split <;> rename_i h <;> rw [h] <;> rfl

/-- What is left after a slash and a component is shorter. -/
theorem len_after_component (u rest : String) : len rest < len ("/" ++ u ++ rest) := by
  have hslash : len "/" = 1 := rfl
  rw [len_append, len_append, hslash]
  omega

theorem slash_mem_rest {u v : String} (hu : asBytes u ∈ pathComponent)
    (hv : asBytes v ∈ pathRest) : asBytes ("/" ++ u ++ v) ∈ pathRest := by
  rw [asBytes_append, asBytes_append, List.append_assoc]
  change byte '/' :: (asBytes u ++ asBytes v) ∈ pathRest
  exact pathRest_cons hu hv

theorem append_mem_path {u v : String} (hu : asBytes u ∈ pathComponent)
    (hv : asBytes v ∈ pathRest) : asBytes (u ++ v) ∈ Grammar.path := by
  rw [asBytes_append]
  exact mem_path.mpr ⟨_, hu, _, hv, rfl⟩

/-- The loop reads slashes and components up to the end of the path. -/
theorem parseFromSlashLoop_sat {done : String} (todo : String) (hdone : AsciiUpTo done (len done))
    (hlen : len done ≤ maxU8) :
    (parseFromSlashLoop (done ++ todo) (len done)).Sat
      (fun i => ∃ u rest, todo = u ++ rest ∧ asBytes u ∈ pathRest ∧ i = len done + len u ∧
        i ≤ maxU8 ∧ StopsAt isEnd (asBytes rest))
      fun e => AsciiUpTo (done ++ todo) e.index := by
  induction hn : len todo using Nat.strong_induction_on generalizing done todo with
  | _ n ih =>
    rw [parseFromSlashLoop_eq]
    apply Outcome.Sat.bind (parseNext_sat todo hdone)
    intro next hnext
    cases next with
    | none => exact ⟨"", todo, by simp, Language.nil_mem_kstar _, rfl, hlen, hnext⟩
    | some i =>
      obtain ⟨u, rest, rfl, hu, rfl, hmax⟩ := hnext
      have hslash : len ("/" ++ u) = 1 + len u := len_append "/" u
      have hcat : done ++ ("/" ++ u ++ rest) = (done ++ ("/" ++ u)) ++ rest :=
        (String.append_assoc ..).symm
      have hdone' : len (done ++ ("/" ++ u)) = len done + 1 + len u := by
        rw [len_append, hslash, Nat.add_assoc]
      have hascii : AsciiUpTo (done ++ ("/" ++ u)) (len (done ++ ("/" ++ u))) := by
        have hslash : IsAscii "/" := by decide
        rw [len_append]
        exact hdone.append (hslash.append (ascii_component hu)).upTo
      have hrec := ih (len rest) (hn ▸ len_after_component u rest) _ hascii
        (by rw [hdone']; exact hmax) rfl
      rw [hcat, ← hdone']
      refine hrec.mono ?_ fun e he => he
      rintro i ⟨v, rest', rfl, hv, rfl, hi, hstop⟩
      refine ⟨"/" ++ u ++ v, rest', (String.append_assoc ..).symm, slash_mem_rest hu hv, ?_, hi,
        hstop⟩
      rw [hdone', len_append, hslash]
      omega

/-- In front of a continuation of a path stands what may stand behind it, or a slash. -/
theorem stopsAt_rest {u rest : String} (hu : asBytes u ∈ pathRest)
    (hstop : StopsAt isStop (asBytes rest)) : StopsAt isStop (asBytes (u ++ rest)) := by
  rw [asBytes_append]
  rcases pathRest_cases hu with hu | ⟨x, -, r, -, hu⟩
  · rwa [hu]
  · rw [hu]
    exact stopsAt_cons.mpr (by decide)

/-- A continuation that is not empty is a slash, a component and a continuation. -/
theorem exists_of_pathRest {u : String} (hu : asBytes u ∈ pathRest) :
    u = "" ∨ ∃ w v, u = "/" ++ w ++ v ∧ asBytes w ∈ pathComponent ∧ asBytes v ∈ pathRest := by
  rcases pathRest_cases hu with hnil | ⟨x, hx, r, hr, hcons⟩
  · exact Or.inl (asBytes_inj.mp hnil)
  · obtain ⟨t, rfl⟩ := exists_append_of_head (s := u) "/" (by rw [hcons]; rfl) rfl (by decide)
    have ht : asBytes t = x ++ r := by
      rw [asBytes_append] at hcons
      exact (List.cons.inj hcons).2
    obtain ⟨w, v, rfl, rfl, rfl⟩ := exists_append_of_ascii ht fun c hc =>
      ascii_of_isComponentByte c (isComponentByte_of_mem hx c hc)
    exact Or.inr ⟨w, v, (String.append_assoc ..).symm, hx, hr⟩

theorem len_slash_append (u x : String) : len (u ++ "/" ++ x) = len u + 1 + len x := by
  rw [len_append, len_append]
  rfl

/-- The loop gets behind every continuation of a path that a u8 can count. -/
theorem parseFromSlashLoop_reaches (done : String) {u rest : String} (hu : asBytes u ∈ pathRest)
    (hlen : len done + len u ≤ maxU8) (hstop : StopsAt isStop (asBytes rest)) :
    parseFromSlashLoop (done ++ (u ++ rest)) (len done) =
      parseFromSlashLoop (done ++ (u ++ rest)) (len done + len u) := by
  induction hn : len u using Nat.strong_induction_on generalizing done u with
  | _ n ih =>
    rcases exists_of_pathRest hu with rfl | ⟨w, v, rfl, hw, hv⟩
    · obtain rfl : n = 0 := hn.symm
      rfl
    · have hl : len ("/" ++ w ++ v) = 1 + len w + len v := by
        rw [len_append, len_append]
        rfl
      have hdone := len_slash_append done w
      have hstop' : StopsAt isStop (asBytes (v ++ rest)) := stopsAt_rest hv hstop
      have hturn : done ++ ("/" ++ w ++ v ++ rest) = done ++ ("/" ++ w ++ (v ++ rest)) := by
        simp only [String.append_assoc]
      have hnext : done ++ ("/" ++ w ++ (v ++ rest)) = (done ++ "/" ++ w) ++ (v ++ rest) := by
        simp only [String.append_assoc]
      have hsum : len (done ++ "/" ++ w) + len v = len done + n := by omega
      rw [hl] at hlen hn
      rw [hturn, parseFromSlashLoop_eq, parseNext_ok done hw (by omega) hstop', Outcome.ok_bind]
      dsimp only
      rw [hnext, ih (len v) (by omega) _ hv (by omega) rfl, hsum]

/-- The loop reads every continuation of a path that a u8 can count. -/
theorem parseFromSlashLoop_ok (done : String) {u rest : String} (hu : asBytes u ∈ pathRest)
    (hlen : len done + len u ≤ maxU8) (hstop : StopsAt isEnd (asBytes rest)) :
    parseFromSlashLoop (done ++ (u ++ rest)) (len done) = .ok (len done + len u) := by
  have hreaches := parseFromSlashLoop_reaches done hu hlen (hstop.mono isStop_of_isEnd)
  rw [hreaches, ← String.append_assoc, ← len_append, parseFromSlashLoop_eq,
    parseNext_end _ hstop]
  rfl

theorem parseFromSlash_sat (src : String) :
    (parseFromSlash src).Sat
      (fun extension => ∃ u rest, src = u ++ rest ∧ asBytes u ∈ pathRest ∧
        extension = (ShortLength.new (len u)).map PathSpan.mk ∧ len u ≤ maxU8 ∧
        StopsAt isEnd (asBytes rest))
      fun e => AsciiUpTo src e.index := by
  have hloop := parseFromSlashLoop_sat src (asciiUpTo_zero "")
    (Nat.zero_le _)
  rw [String.empty_append] at hloop
  apply Outcome.Sat.bind hloop
  intro i
  rintro ⟨u, rest, rfl, hu, rfl, hmax, hstop⟩
  rw [len_empty, Nat.zero_add] at hmax ⊢
  exact ⟨u, rest, rfl, hu, rfl, hmax, hstop⟩

theorem parseFromSlash_ok {u rest : String} (hu : asBytes u ∈ pathRest) (hlen : len u ≤ maxU8)
    (hstop : StopsAt isEnd (asBytes rest)) :
    parseFromSlash (u ++ rest) = .ok ((ShortLength.new (len u)).map PathSpan.mk) := by
  have hloop := parseFromSlashLoop_ok "" hu (by simpa using hlen) hstop
  rw [String.empty_append, len_empty, Nat.zero_add] at hloop
  rw [parseFromSlash, hloop]
  rfl

/-- The length of an optional extension. -/
theorem extension_length {n : Nat} (h : n ≤ maxU8) :
    ((((ShortLength.new n).map PathSpan.mk).map fun e => e.length.val).getD 0) = n := by
  rw [ShortLength.new, Length.new]
  split
  · rfl
  · rename_i hn
    simp only [Option.map_none, Option.getD_none]
    omega

/-- A path is extended by every continuation up to its end. -/
theorem extend_sat {done : String} (rest : String) {span : PathSpan}
    (hdone : AsciiUpTo done (len done)) (hspan : span.length.val = len done) :
    (span.extend rest).Sat
      (fun p => ∃ u r, rest = u ++ r ∧ asBytes u ∈ pathRest ∧
        p.length.val = len done + len u ∧ StopsAt isEnd (asBytes r))
      fun e => AsciiUpTo (done ++ rest) e.index ∧ e.index ≤ maxU8 := by
  refine Outcome.Sat.bind ((parseFromSlash_sat rest).mapErr fun e he => ?_) fun extension => ?_
  · rw [hspan]
    exact ⟨rebase_sat _ (hdone.append he), rebase_le _ _ _⟩
  · rintro ⟨u, r, rfl, hu, rfl, hmax, hstop⟩
    rw [extension_length hmax]
    refine Outcome.Sat.bind (P := fun length : ShortLength =>
      span.length.val + len u = length.val)
      (Outcome.sat_okOr (fun l hl => Length.checkedAdd_eq_some.mp hl) fun hl => ?_)
      fun l hl => ?_
    · have hover := Length.checkedAdd_eq_none.mp hl
      have hascii : AsciiUpTo (u ++ r) (len u) :=
        asciiUpTo_of_bytes (asBytes_append u r) fun c hc =>
          ascii_of_isPathByte c (isPathByte_of_mem_rest hu c hc)
      refine ⟨(hdone.append hascii).mono ?_, Nat.le_refl _⟩
      simp only [errPathTooLong]
      omega
    · exact ⟨u, r, rfl, hu, by rw [← hl, hspan], hstop⟩

theorem extend_ok {u rest : String} (span : PathSpan) (hu : asBytes u ∈ pathRest)
    (hlen : span.length.val + len u ≤ maxU8) (hstop : StopsAt isEnd (asBytes rest)) :
    ∃ p, span.extend (u ++ rest) = .ok p ∧ p.length.val = span.length.val + len u := by
  let length : ShortLength :=
    ⟨span.length.val + len u, Nat.add_pos_left span.length.pos _, hlen⟩
  have hadd : span.length.checkedAdd (len u) = some length :=
    Length.checkedAdd_eq_some.mpr rfl
  refine ⟨⟨length⟩, ?_, rfl⟩
  rw [extend, parseFromSlash_ok hu (by omega) hstop, Outcome.mapErr_ok, Outcome.ok_bind,
    extension_length (by omega), hadd, Outcome.okOr_some, Outcome.ok_bind]

/-- A successful parse spans a path, up to the end of the path. -/
theorem new_sat (src : String) :
    (new src).Sat
      (fun p => ∃ u rest, src = u ++ rest ∧ asBytes u ∈ Grammar.path ∧ p.length.val = len u ∧
        StopsAt isEnd (asBytes rest))
      fun e => AsciiUpTo src e.index ∧ e.index ≤ maxU8 := by
  refine Outcome.Sat.bind ((parseComponent_sat src).mono (fun _ hp => hp)
    fun e he => ⟨he.1, he.2.1⟩) fun first => ?_
  rintro ⟨u, rest, rfl, hu, hfirst, -⟩
  have hascii := (ascii_component hu).upTo
  rw [hfirst, sliceFrom_append, Outcome.ok_bind]
  refine (extend_sat rest hascii hfirst).mono ?_ fun e he => he
  rintro p ⟨v, r, rfl, hv, hp, hstop⟩
  exact ⟨u ++ v, r, (String.append_assoc ..).symm, append_mem_path hu hv,
    by rw [hp, len_append], hstop⟩

/-- Every path that a u8 can count is parsed to its end. -/
theorem new_ok {u : String} (rest : String) (hu : asBytes u ∈ Grammar.path) (hlen : len u ≤ maxU8)
    (hstop : StopsAt isEnd (asBytes rest)) :
    ∃ p, new (u ++ rest) = .ok p ∧ p.length.val = len u := by
  obtain ⟨x, hx, r, hr, hxr⟩ := mem_path.mp hu
  obtain ⟨w, v, rfl, rfl, rfl⟩ := exists_append_of_ascii hxr.symm fun c hc =>
    ascii_of_isComponentByte c (isComponentByte_of_mem hx c hc)
  rw [len_append] at hlen
  obtain ⟨first, hfirst, hflen⟩ := parseComponent_ok hx (by omega)
    (stopsAt_rest hr (hstop.mono isStop_of_isEnd))
  obtain ⟨p, hp, hplen⟩ := extend_ok first hr (by omega) hstop
  refine ⟨p, ?_, by rw [hplen, hflen, len_append]⟩
  rw [new, String.append_assoc, hfirst, Outcome.ok_bind, hflen, sliceFrom_append,
    Outcome.ok_bind, hp]

theorem eq_of_length {p q : PathSpan} (h : p.length.val = q.length.val) : p = q := by
  cases p
  cases q
  exact congrArg PathSpan.mk (Length.ext h)

/-- The span of a path is what is made of its text. -/
theorem new_of_length {u : String} {span : PathSpan} (hu : asBytes u ∈ Grammar.path)
    (hlen : span.length.val = len u) : new u = .ok span := by
  obtain ⟨p, hp, hplen⟩ := new_ok "" hu (hlen ▸ span.length.le) (stopsAt_nil _)
  rw [String.append_empty] at hp
  rw [hp, eq_of_length (hplen.trans hlen.symm)]

end PathSpan

/-- Not including any leading `/`. -/
structure Path where
  src : String
  span : PathSpan
  deriving DecidableEq, Repr

namespace Path

def fromSpan {ε : Type u} (span : PathSpan) (src : String) : Outcome ε Path := do
  Outcome.assert (span.length.val = len src)
  .ok ⟨src, span⟩

def new (src : String) : Outcome Error Path := do
  let span ← PathSpan.new src
  fromSpan span src

def toStr {ε : Type u} (path : Path) : Outcome ε String := sliceTo path.src path.span.length.val

/-- The `/`-delimited components of the path. -/
def parts {ε : Type u} (path : Path) : Outcome ε (List String) := do
  let text ← path.toStr
  .ok ((text.split '/').toList.map String.Slice.copy)

end Path

end ContainerImageDistRef

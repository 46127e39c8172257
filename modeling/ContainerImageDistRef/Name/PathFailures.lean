import ContainerImageDistRef.Name.PathErrors
import ContainerImageDistRef.Ambiguous.SegmentErrors

/-!
# Every error of a path

A path is read component by component, and the error of a later component is
moved twice: behind its slash, and behind the first component. Both moves give
up the kind of the error where the index would leave a u8. The table says for
the whole text which error is left.
-/

namespace ContainerImageDistRef

open ByteString Grammar ViablePrefix HostOrPath

namespace PathSpan

open ContainerImageDistRef.Path

theorem parseComponent_eq_err {src : String} {e : Error} :
    parseComponent src = .err e ↔ ∃ e', HostOrPathSpan.Fails .path src e' ∧ e = mapError e' := by
  have hk : Kind.path ≠ .ipV6 := by decide
  have hany : Kind.path = .any → (asBytes src).head? ≠ some (byte '[') := fun h => by cases h
  have hscan := fun e' => HostOrPathSpan.new_eq_err_iff (e := e') hk hany
  constructor
  · intro h
    rcases Outcome.bind_eq_err.mp h with h | ⟨span, hspan, h⟩
    · obtain ⟨e', he', rfl⟩ := Outcome.mapErr_eq_err.mp h
      exact ⟨e', (hscan e').mp he', rfl⟩
    · obtain ⟨u, rest, -, -, hspans⟩ :=
        (HostOrPathSpan.new_path_sat src).of_ok (Outcome.mapErr_eq_ok.mp hspan)
      cases (tryFrom_ok hspans (by simp [flavorOf])).symm.trans h
  · rintro ⟨e', he', rfl⟩
    rw [parseComponent, (hscan e').mpr he', Outcome.mapErr_err, Outcome.err_bind]

/-- The error of a component behind the first `offset` bytes of a path. -/
def componentError (offset : Nat) (e : Error) : Error :=
  if offset + e.index ≤ 255 then
    ⟨offset + e.index,
      if e.kind = .hostOrPathMissing then .pathComponentInvalidEnd else (mapError e).kind⟩
  else errPathTooLong

theorem new_first {src : String} {e : Error} (h : HostOrPathSpan.Fails .path src e) :
    new src = .err (mapError e) := by
  rw [new, parseComponent_eq_err.mpr ⟨e, h, rfl⟩, Outcome.err_bind]

/-- The errors of a path. -/
inductive Fails (src : String) : Error → Prop
  | first {e : Error} (h : HostOrPathSpan.Fails .path src e) : Fails src (mapError e)
  | later {u after : String} {e : Error} (hsrc : src = u ++ "/" ++ after)
      (hu : asBytes u ∈ Grammar.path) (hlen : len u ≤ 255)
      (h : HostOrPathSpan.Fails .path after e) :
      Fails src (componentError (len u + 1) e)
  | long {u rest : String} (hsrc : src = u ++ rest) (hu : asBytes u ∈ Grammar.path)
      (hstop : StopsAt isStop (asBytes rest)) (hlen : 255 < len u) : Fails src errPathTooLong

theorem rebase_eq (e : Error) (offset : Nat) (kind : Err.Kind) :
    rebase e offset kind =
      if offset + e.index ≤ 255 then ⟨offset + e.index, kind⟩ else errPathTooLong := by
  rw [rebase, Nat.add_comm offset]
  by_cases hle : e.index + offset ≤ 255
  · rw [if_pos hle, checkedAddU8_eq_some.mpr ⟨hle, rfl⟩]
  · rw [if_neg hle, checkedAddU8_eq_none.mpr (Nat.lt_of_not_le hle)]

/-- The two moves of an error are one. -/
theorem rebase_rebase {e : Error} {a b : Nat} {kind : Err.Kind} (hb : 0 < b) :
    rebase (rebase e a kind) b (rebase e a kind).kind = rebase e (b + a) kind := by
  rw [rebase_eq e a, rebase_eq e (b + a)]
  by_cases ha : a + e.index ≤ 255
  · rw [if_pos ha, rebase_eq]
    dsimp only
    rw [Nat.add_assoc]
  · have hmax : ¬b + errPathTooLong.index ≤ 255 := by
      have h255 : errPathTooLong.index = 255 := rfl
      omega
    rw [if_neg ha, if_neg (by omega), rebase_eq, if_neg hmax]

theorem mapError_missing {e : Error} (hkind : e.kind ≠ .pathMissing) :
    (mapError e).kind = .pathMissing ↔ e.kind = .hostOrPathMissing := by
  rw [mapError]
  split <;> rename_i h
  · simp [h]
  · simp [h]
  · simp [h]
  · exact iff_of_false hkind (by assumption)

theorem rebase_eq_componentError {src : String} {e : Error} {offset : Nat}
    (h : HostOrPathSpan.Fails .path src e) :
    rebase (mapError e) offset
      (if (mapError e).kind = .pathMissing then .pathComponentInvalidEnd else (mapError e).kind) =
        componentError offset e := by
  have hkind : e.kind ≠ .pathMissing := by
    cases h with
    | refused _ _ _ _ hkind => cases hkind <;> simp
    | _ => simp
  rw [componentError, rebase_eq, mapError_index]
  simp only [mapError_missing hkind]

/-- What `extend` makes of the end of its loop. -/
def extendTo (length : ShortLength) (x : Outcome Error Nat) : Outcome Error PathSpan :=
  (x.mapErr fun e => rebase e length.val e.kind) >>= fun i =>
    Outcome.okOr (length.checkedAdd i) errPathTooLong >>= fun l => .ok ⟨l⟩

theorem extend_eq (span : PathSpan) (rest : String) :
    span.extend rest = extendTo span.length (parseFromSlashLoop rest 0) := by
  have hloop := parseFromSlashLoop_sat rest (asciiUpTo_zero "") (Nat.zero_le _)
  rw [String.empty_append, len_empty] at hloop
  rw [extend, parseFromSlash, extendTo]
  cases hi : parseFromSlashLoop rest 0 with
  | err e => rfl
  | panic p => rfl
  | ok i =>
    obtain ⟨-, -, -, -, -, hle, -⟩ := hloop.of_ok hi
    rw [Outcome.ok_bind, Outcome.mapErr_ok, Outcome.mapErr_ok, Outcome.ok_bind, Outcome.ok_bind,
      extension_length hle]

/-- An error of the loop stands behind what the loop has read. -/
theorem parseFromSlashLoop_err_le {done todo : String} {e : Error}
    (hstop : StopsAt isStop (asBytes todo))
    (h : parseFromSlashLoop (done ++ todo) (len done) = .err e) :
    len done ≤ e.index ∨ e.index = 255 := by
  induction hn : len todo using Nat.strong_induction_on generalizing done todo with
  | _ n ih =>
    rw [parseFromSlashLoop_eq] at h
    rcases Outcome.bind_eq_err.mp h with h | ⟨next, hnext, h⟩
    · by_cases hend : StopsAt isEnd (asBytes todo)
      · cases (parseNext_end done hend).symm.trans h
      obtain ⟨after, rfl⟩ := exists_slash hstop hend
      rw [parseNext_slash] at h
      rcases Outcome.bind_eq_err.mp h with h | ⟨index, hindex, h⟩
      · obtain ⟨-, rfl⟩ := Outcome.okOr_eq_err.mp h
        exact Or.inl (Nat.le_refl _)
      obtain ⟨-, rfl⟩ := checkedAddU8_eq_some.mp (Outcome.okOr_eq_ok.mp hindex)
      rcases Outcome.bind_eq_err.mp h with h | ⟨component, -, h⟩
      · obtain ⟨e', -, rfl⟩ := Outcome.mapErr_eq_err.mp h
        rw [rebase_eq]
        split
        · dsimp only
          omega
        · exact Or.inr rfl
      · rcases Outcome.bind_eq_err.mp h with h | ⟨_, _, h⟩
        · obtain ⟨-, rfl⟩ := Outcome.okOr_eq_err.mp h
          exact Or.inr rfl
        · cases h
    · cases next with
      | none => cases h
      | some j =>
        obtain ⟨u, rest, rfl, hu, rfl, hrest⟩ := parseNext_some hstop hnext
        have hcat : done ++ ("/" ++ u ++ rest) = (done ++ "/" ++ u) ++ rest := by
          simp only [String.append_assoc]
        dsimp only at h
        rw [hcat] at h
        refine (ih (len rest) (hn ▸ len_after_component u rest) hrest h rfl).imp_left fun hle => ?_
        rw [len_slash_append] at hle
        omega

/-- What `extend` returns where its loop has left the range of a u8. -/
theorem extendTo_over {length : ShortLength} {x : Outcome Error Nat} {n : Nat}
    (hpanic : (extendTo length x).NoPanic) (hok : ∀ i, x = .ok i → n ≤ i)
    (herr : ∀ e, x = .err e → n ≤ e.index ∨ e.index = 255) (hover : 255 < length.val + n) :
    extendTo length x = .err errPathTooLong := by
  have hpos := length.pos
  cases x with
  | ok i =>
    have hnone : length.checkedAdd i = none := by
      have hi := hok i rfl
      exact Length.checkedAdd_eq_none.mpr (by simp only [maxU8]; omega)
    rw [extendTo, Outcome.mapErr_ok, Outcome.ok_bind, hnone]
    rfl
  | err e =>
    have hnot : ¬length.val + e.index ≤ 255 := by
      rcases herr e rfl with h | h <;> omega
    rw [extendTo, Outcome.mapErr_err, rebase_eq, if_neg hnot, Outcome.err_bind]
  | panic p => exact hpanic.elim

theorem ascii_rest {u : String} (hu : asBytes u ∈ pathRest) : IsAscii u :=
  fun c hc => ascii_of_isPathByte c (isPathByte_of_mem_rest hu c hc)

/-- A path goes on with a slash and a component. -/
theorem append_slash_mem {u x : String} (hu : asBytes u ∈ Grammar.path)
    (hx : asBytes x ∈ pathComponent) : asBytes (u ++ "/" ++ x) ∈ Grammar.path := by
  rw [asBytes_append, asBytes_append, List.append_assoc]
  exact path_slash_iff.mpr ⟨hu, SeparatedList.mem_sepBy_of_mem hx⟩

section Reached

variable {u : String}

/-- The parser gets behind every path that a u8 can count. -/
theorem exists_new_eq {rest : String} (hu : asBytes u ∈ Grammar.path) (hlen : len u ≤ maxU8)
    (hstop : StopsAt isStop (asBytes rest)) :
    ∃ w v, ∃ l : ShortLength, u = w ++ v ∧ asBytes v ∈ pathRest ∧ l.val = len w ∧
      new (u ++ rest) = extendTo l (parseFromSlashLoop (v ++ rest) (len v)) := by
  obtain ⟨x, hx, r, hr, hxr⟩ := mem_path.mp hu
  obtain ⟨w, v, rfl, rfl, rfl⟩ := exists_append_of_ascii hxr.symm fun c hc =>
    ascii_of_isComponentByte c (isComponentByte_of_mem hx c hc)
  rw [len_append] at hlen
  have hstop' : StopsAt isStop (asBytes (v ++ rest)) := stopsAt_rest hr hstop
  obtain ⟨first, hfirst, hflen⟩ := parseComponent_ok hx (by omega) hstop'
  refine ⟨w, v, first.length, rfl, hr, hflen, ?_⟩
  have hloop := parseFromSlashLoop_reaches "" hr (by rw [len_empty]; omega) hstop
  rw [String.empty_append, len_empty, Nat.zero_add] at hloop
  rw [new, String.append_assoc, hfirst, Outcome.ok_bind, hflen, sliceFrom_append, Outcome.ok_bind,
    extend_eq, hloop]

/-- A slash in front of `after` is counted, and what follows it is read as a component. -/
theorem parseNext_counted {v : String} (after : String) (hlen : len v + 1 ≤ maxU8) :
    parseNext (v ++ ("/" ++ after)) (len v) =
      ((parseComponent after).mapErr fun e => rebase e (len v + 1)
        (if e.kind = .pathMissing then .pathComponentInvalidEnd else e.kind)) >>= fun component =>
          Outcome.okOr (checkedAddU8 (len v + 1) component.length.val) errPathTooLong >>=
            fun index => .ok (some index) := by
  have hadd : checkedAddU8 (len v) 1 = some (len v + 1) := checkedAddU8_eq_some.mpr ⟨hlen, rfl⟩
  rw [parseNext_slash, hadd, Outcome.okOr_some, Outcome.ok_bind]

theorem counted {w v : String} {l : ShortLength} (hl : l.val = len w)
    (hlen : len (w ++ v) ≤ maxU8) : len v + 1 ≤ maxU8 := by
  have hpos := l.pos
  rw [len_append] at hlen
  omega

/-- The error of a component behind a path and a slash. -/
theorem new_later {after : String} {e : Error} (hu : asBytes u ∈ Grammar.path)
    (hlen : len u ≤ maxU8) (h : HostOrPathSpan.Fails .path after e) :
    new (u ++ ("/" ++ after)) = .err (componentError (len u + 1) e) := by
  obtain ⟨w, v, l, rfl, -, hl, hnew⟩ :=
    exists_new_eq hu hlen (stopsAt_sep (p := isStop) "/" rfl (by decide) after)
  have hcomponent := parseComponent_eq_err.mpr ⟨e, h, rfl⟩
  have hsum : len w + (len v + 1) = len (w ++ v) + 1 := by rw [len_append, Nat.add_assoc]
  rw [hnew, parseFromSlashLoop_eq, parseNext_counted after (counted hl hlen), hcomponent,
    Outcome.mapErr_err, Outcome.err_bind, Outcome.err_bind, extendTo, Outcome.mapErr_err,
    rebase_rebase l.pos, hl, hsum, rebase_eq_componentError h]
  rfl

/-- A component behind a path and a slash that ends past what a u8 can count. -/
theorem new_over {x rest : String} (hu : asBytes u ∈ Grammar.path) (hlen : len u ≤ maxU8)
    (hx : asBytes x ∈ pathComponent) (hxlen : len x ≤ maxU8) (hstop : StopsAt isStop (asBytes rest))
    (hover : 255 < len u + 1 + len x) :
    new (u ++ ("/" ++ (x ++ rest))) = .err errPathTooLong := by
  obtain ⟨w, v, l, rfl, hv, hl, hnew⟩ :=
    exists_new_eq hu hlen (stopsAt_sep (p := isStop) "/" rfl (by decide) (x ++ rest))
  have hpanic :=
    (new_sat (w ++ v ++ ("/" ++ (x ++ rest)))).mono (fun _ _ => trivial) fun _ _ => trivial
  obtain ⟨p, hp, hplen⟩ := parseComponent_ok hx hxlen hstop
  have hcat : v ++ ("/" ++ (x ++ rest)) = (v ++ "/" ++ x) ++ rest := by
    simp only [String.append_assoc]
  have hdone : len v + 1 + len x = len (v ++ "/" ++ x) := (len_slash_append v x).symm
  have hloop : parseFromSlashLoop (v ++ ("/" ++ (x ++ rest))) (len v) =
      Outcome.okOr (checkedAddU8 (len v + 1) (len x)) errPathTooLong >>= fun j =>
        parseFromSlashLoop ((v ++ "/" ++ x) ++ rest) j := by
    rw [parseFromSlashLoop_eq, parseNext_counted _ (counted hl hlen), hp, Outcome.mapErr_ok,
      Outcome.ok_bind, hplen, ← hcat]
    cases checkedAddU8 (len v + 1) (len x) <;> rfl
  rw [hnew, hloop] at hpanic ⊢
  refine extendTo_over (n := len (v ++ "/" ++ x)) hpanic ?_ ?_ ?_
  · intro i hi
    obtain ⟨j, hj, hi⟩ := Outcome.bind_eq_ok.mp hi
    obtain ⟨hle, rfl⟩ := checkedAddU8_eq_some.mp (Outcome.okOr_eq_ok.mp hj)
    rw [hdone] at hi hle
    have hascii : AsciiUpTo (v ++ "/" ++ x) (len (v ++ "/" ++ x)) := by
      rw [len_append]
      exact (ascii_slash (ascii_rest hv).upTo).append (ascii_component hx).upTo
    obtain ⟨z, -, -, -, rfl, -, -⟩ := (parseFromSlashLoop_sat rest hascii hle).of_ok hi
    exact Nat.le_add_right _ _
  · intro e he
    rcases Outcome.bind_eq_err.mp he with he | ⟨j, hj, he⟩
    · obtain ⟨-, rfl⟩ := Outcome.okOr_eq_err.mp he
      exact Or.inr rfl
    · obtain ⟨-, rfl⟩ := checkedAddU8_eq_some.mp (Outcome.okOr_eq_ok.mp hj)
      rw [hdone] at he
      exact parseFromSlashLoop_err_le hstop he
  · rw [← hdone, hl]
    rw [len_append] at hover
    omega

end Reached

/-- A path that no u8 can count comes to an error before its end. -/
theorem new_crossing {u v rest : String} (hu : asBytes u ∈ Grammar.path) (hlen : len u ≤ maxU8)
    (hv : asBytes v ∈ pathRest) (hover : 255 < len u + len v)
    (hstop : StopsAt isStop (asBytes rest)) :
    new (u ++ (v ++ rest)) = .err errPathTooLong := by
  induction hn : len v using Nat.strong_induction_on generalizing u v with
  | _ n ih =>
    rcases exists_of_pathRest hv with rfl | ⟨x, r, rfl, hx, hr⟩
    · rw [len_empty] at hover
      exact absurd hlen (Nat.not_le_of_lt hover)
    have hstop' : StopsAt isStop (asBytes (r ++ rest)) := stopsAt_rest hr hstop
    have hcat : u ++ ("/" ++ x ++ r ++ rest) = u ++ ("/" ++ (x ++ (r ++ rest))) := by
      simp only [String.append_assoc]
    have hl : len ("/" ++ x ++ r) = 1 + len x + len r := by
      rw [len_append, len_append]
      rfl
    by_cases hmax : len u + 1 + len x ≤ 255
    · -- the component is counted, and the path goes on behind it
      have hsum : len (u ++ "/" ++ x) = len u + 1 + len x := len_slash_append u x
      have hnext : u ++ ("/" ++ (x ++ (r ++ rest))) = (u ++ "/" ++ x) ++ (r ++ rest) := by
        simp only [String.append_assoc]
      rw [hcat, hnext]
      exact ih (len r) (by omega) (append_slash_mem hu hx) (hsum.symm ▸ hmax) hr (by omega) rfl
    rw [hcat]
    by_cases hxlen : len x ≤ maxU8
    · exact new_over hu hlen hx hxlen hstop' (Nat.lt_of_not_le hmax)
    · have hlong := HostOrPathSpan.fails_long (f := .path) (Or.inl ⟨by simp, hx⟩)
        (Nat.lt_of_not_le hxlen) (r ++ rest)
      have herr : componentError (len u + 1) ⟨maxU8, .hostOrPathTooLong⟩ = errPathTooLong :=
        if_neg (by simp only [maxU8]; omega)
      rw [new_later hu hlen hlong, herr]

theorem new_long {u rest : String} (hu : asBytes u ∈ Grammar.path) (hlen : 255 < len u)
    (hstop : StopsAt isStop (asBytes rest)) : new (u ++ rest) = .err errPathTooLong := by
  obtain ⟨x, hx, r, hr, hxr⟩ := mem_path.mp hu
  obtain ⟨w, v, rfl, rfl, rfl⟩ := exists_append_of_ascii hxr.symm fun c hc =>
    ascii_of_isComponentByte c (isComponentByte_of_mem hx c hc)
  rw [len_append] at hlen
  rw [String.append_assoc]
  by_cases hwlen : len w ≤ maxU8
  · exact new_crossing (SeparatedList.mem_sepBy_of_mem hx) hwlen hr hlen hstop
  · have hlong := HostOrPathSpan.fails_long (f := .path) (Or.inl ⟨by simp, hx⟩)
      (Nat.lt_of_not_le hwlen) (v ++ rest)
    exact new_first hlong

/-- A path that has been read so far leads to its end or to an error of the table. -/
theorem fails_of_err {u todo : String} {e : Error} (hu : asBytes u ∈ Grammar.path)
    (hlen : len u ≤ maxU8) (hstop : StopsAt isStop (asBytes todo))
    (h : new (u ++ todo) = .err e) : Fails (u ++ todo) e := by
  induction hn : len todo using Nat.strong_induction_on generalizing u todo with
  | _ n ih =>
    by_cases hend : StopsAt isEnd (asBytes todo)
    · obtain ⟨p, hp, -⟩ := new_ok todo hu hlen hend
      cases hp.symm.trans h
    obtain ⟨after, rfl⟩ := exists_slash hstop hend
    cases hx : parseComponent after with
    | panic p => exact absurd hx ((parseComponent_sat after).ne_panic p)
    | err e' =>
      obtain ⟨e', he', rfl⟩ := parseComponent_eq_err.mp hx
      rw [new_later hu hlen he'] at h
      cases h
      exact .later (String.append_assoc ..).symm hu hlen he'
    | ok p =>
      obtain ⟨x, rest, rfl, hx, hp, hrest⟩ := (parseComponent_sat after).of_ok hx
      have hcat : u ++ ("/" ++ (x ++ rest)) = (u ++ "/" ++ x) ++ rest := by
        simp only [String.append_assoc]
      have hsum : len (u ++ "/" ++ x) = len u + 1 + len x := len_slash_append u x
      have hmem := append_slash_mem hu hx
      by_cases hmax : len u + 1 + len x ≤ 255
      · have hless : len rest < n := by
          rw [← hn, ← String.append_assoc]
          exact len_after_component x rest
        rw [hcat] at h ⊢
        exact ih (len rest) hless hmem (by rw [hsum]; exact hmax) hrest h rfl
      · have hxlen : len x ≤ maxU8 := hp ▸ p.length.le
        rw [new_over hu hlen hx hxlen hrest (Nat.lt_of_not_le hmax)] at h
        cases h
        exact .long hcat hmem hrest (by rw [hsum]; exact Nat.lt_of_not_le hmax)

theorem new_eq_err_iff {src : String} {e : Error} : new src = .err e ↔ Fails src e := by
  constructor
  · intro h
    cases hx : parseComponent src with
    | panic p => exact absurd hx ((parseComponent_sat src).ne_panic p)
    | err e' =>
      rw [new, hx, Outcome.err_bind] at h
      cases h
      obtain ⟨e', he', rfl⟩ := parseComponent_eq_err.mp hx
      exact .first he'
    | ok p =>
      obtain ⟨x, rest, rfl, hx, hp, hrest⟩ := (parseComponent_sat src).of_ok hx
      exact fails_of_err (SeparatedList.mem_sepBy_of_mem hx) (hp ▸ p.length.le) hrest h
  · rintro (h | ⟨rfl, hu, hlen, h⟩ | ⟨rfl, hu, hstop, hlen⟩)
    · exact new_first h
    · rw [String.append_assoc]
      exact new_later hu hlen h
    · exact new_long hu hlen hstop

/-- The errors of a path are those of the table. -/
theorem path_refuses_iff (src : String) (e : Error) :
    (new src = .err e ↔ Fails src e) ∧ (Path.new src = .err e ↔ Fails src e) := by
  refine ⟨new_eq_err_iff, ?_⟩
  rw [← new_eq_err_iff]
  constructor
  · intro h
    rcases Outcome.bind_eq_err.mp h with h | ⟨span, -, h⟩
    · exact h
    · rw [fromSpan, Outcome.assert] at h
      split at h <;> cases h
  · intro h
    rw [Path.new, h, Outcome.err_bind]

example : Path.new "a/b-" = .err ⟨3, .hostOrPathInvalidComponentEnd⟩ := by decide +kernel

end PathSpan

end ContainerImageDistRef

import ContainerImageDistRef.Digest.Language
import ContainerImageDistRef.Digest.AlgorithmErrors
import ContainerImageDistRef.DigestErrorOffsets
import ContainerImageDistRef.PinByDigest

/-!
# Every error of a digest

Which texts the digest parser refuses, with the kind and the index of the
error. The index of a component's error is counted from the start of that
component, the index of an encoded value's error from the start of the digest,
and the index of the last check from the start of the encoded value. The table
says this of the whole text, without the parser.
-/

namespace ContainerImageDistRef

open ByteString Digest

namespace Algorithm

theorem firstCompliance_eq_err {c : Compliance} {b : UInt8} {kind : Err.Kind} :
    firstCompliance c b = .err kind ↔
      isAlnum b = false ∧ kind = .algorithmInvalidChar ∨
        isDigit b = true ∧ c = .distribution ∧ kind = .algorithmInvalidNumericPrefix ∨
        isUpper b = true ∧ c = .oci ∧ kind = .invalidOciAlgorithm := by
  have hclass : ∀ b, isLower b = true → isDigit b = false ∧ isUpper b = false :=
    forall_byte (by decide)
  have hdigit : ∀ b, isDigit b = true → isUpper b = false := forall_byte (by decide)
  rw [firstCompliance, isAlnum]
  by_cases hl : isLower b = true
  · rw [if_pos hl]
    simp [hl, hclass b hl]
  rw [if_neg hl]
  by_cases hd : isDigit b = true
  · rw [if_pos hd]
    cases c <;> simp [hd, hdigit b hd, eq_comm]
  rw [if_neg hd]
  by_cases hu : isUpper b = true
  · rw [if_pos hu]
    cases c <;> simp [hd, hu, eq_comm]
  · rw [if_neg hu]
    simp [hl, hd, hu, eq_comm]

theorem checkByte_eq_err {c : Compliance} {b : UInt8} {kind : Err.Kind} :
    checkByte c b = .err kind ↔
      isAlnum b = false ∧ kind = .algorithmInvalidChar ∨
        isUpper b = true ∧ c = .oci ∧ kind = .invalidOciAlgorithm := by
  have hclass : ∀ b, (isLower b || isDigit b) = true → isUpper b = false :=
    forall_byte (by decide)
  rw [checkByte.eq_def, isAlnum]
  by_cases hl : (isLower b || isDigit b) = true
  · rw [if_pos hl]
    have hu := hclass b hl
    simp only [Bool.or_eq_true] at hl
    rcases hl with hl | hl <;> simp [hl, hu]
  rw [if_neg hl]
  rw [Bool.not_eq_true, Bool.or_eq_false_iff] at hl
  by_cases hu : isUpper b = true
  · rw [if_pos hu]
    cases c <;> simp [hu, eq_comm]
  · rw [if_neg hu]
    simp [hl, hu, eq_comm]

section Loop

variable {c : Compliance}

theorem componentLoop_cons {b : UInt8} {rest : List UInt8} (length : ShortLength)
    (hb : isComponentStop b = false) :
    componentLoop c length (b :: rest) =
      ((checkByte c b).mapErr fun kind => (⟨length.val, kind⟩ : Error)) >>= fun _ =>
        Outcome.okOr (length.checkedAdd 1) ⟨length.val, .algorithmTooLong⟩ >>= fun l =>
          componentLoop c l rest := by
  rw [componentLoop, if_neg (Bool.eq_false_iff.mp hb)]

theorem not_stop_of_checkByte {b : UInt8} (h : checkByte c b = .ok ()) :
    isComponentStop b = false :=
  (isComponentStop_of_isAlnum b ((checkByte_sat c b).of_ok h)).1

/-- The loop reads on over bytes that it allows. -/
theorem componentLoop_append (length : ShortLength) {w : List UInt8} (rest : List UInt8)
    (hw : ∀ b ∈ w, checkByte c b = .ok ()) (hle : length.val + w.length ≤ maxU8) :
    ∃ l, l.val = length.val + w.length ∧
      componentLoop c length (w ++ rest) = componentLoop c l rest := by
  induction w generalizing length with
  | nil => exact ⟨length, rfl, rfl⟩
  | cons b w ih =>
    have hb := hw b List.mem_cons_self
    rw [List.length_cons] at hle ⊢
    let next : ShortLength := ⟨length.val + 1, Nat.succ_pos _, by omega⟩
    have hadd : length.checkedAdd 1 = some next := Length.checkedAdd_eq_some.mpr rfl
    have hnext : next.val = length.val + 1 := rfl
    obtain ⟨l, hl, hloop⟩ := ih next (fun d hd => hw d (List.mem_cons_of_mem b hd)) (by omega)
    refine ⟨l, by omega, ?_⟩
    rw [List.cons_append, componentLoop_cons length (not_stop_of_checkByte hb), hb,
      Outcome.mapErr_ok, Outcome.ok_bind, hadd, Outcome.okOr_some, Outcome.ok_bind, hloop]

/-- What the loop fails with after it has read `n` bytes in front of `b`. -/
def TurnFails (c : Compliance) (n : Nat) (b : UInt8) (e : Error) : Prop :=
  (∃ kind, checkByte c b = .err kind ∧ e = ⟨n, kind⟩) ∨
    checkByte c b = .ok () ∧ n = maxU8 ∧ e = ⟨maxU8, .algorithmTooLong⟩

theorem componentLoop_eq_err {length : ShortLength} {todo : List UInt8} {e : Error} :
    componentLoop c length todo = .err e ↔
      ∃ w b rest, todo = w ++ b :: rest ∧ (∀ d ∈ w, checkByte c d = .ok ()) ∧
        length.val + w.length ≤ maxU8 ∧ isComponentStop b = false ∧
        TurnFails c (length.val + w.length) b e := by
  constructor
  · intro h
    induction todo generalizing length with
    | nil => cases h
    | cons b todo ih =>
      by_cases hstop : isComponentStop b = true
      · rw [componentLoop, if_pos hstop] at h
        cases h
      rw [Bool.not_eq_true] at hstop
      rw [componentLoop_cons length hstop] at h
      rcases Outcome.bind_eq_err.mp h with h | ⟨_, hb, h⟩
      · obtain ⟨kind, hkind, rfl⟩ := Outcome.mapErr_eq_err.mp h
        exact ⟨[], b, todo, rfl, by simp, length.le, hstop, Or.inl ⟨kind, hkind, rfl⟩⟩
      have hb := Outcome.mapErr_eq_ok.mp hb
      rcases Outcome.bind_eq_err.mp h with h | ⟨l, hl, h⟩
      · obtain ⟨hnone, rfl⟩ := Outcome.okOr_eq_err.mp h
        have hover := Length.checkedAdd_eq_none.mp hnone
        have hle := length.le
        have hfull : length.val = maxU8 := by omega
        exact ⟨[], b, todo, rfl, by simp, hle, hstop, Or.inr ⟨hb, hfull, by rw [hfull]⟩⟩
      · have hl := Length.checkedAdd_eq_some.mp (Outcome.okOr_eq_ok.mp hl)
        obtain ⟨w, d, rest, rfl, hw, hle, hd, hfails⟩ := ih h
        have hsum : l.val + w.length = length.val + (b :: w).length := by
          rw [List.length_cons]
          omega
        rw [hsum] at hle hfails
        exact ⟨b :: w, d, rest, rfl, List.forall_mem_cons.mpr ⟨hb, hw⟩, hle, hd, hfails⟩
  · rintro ⟨w, b, rest, rfl, hw, hle, hb, hfails⟩
    obtain ⟨l, hl, hloop⟩ := componentLoop_append length (b :: rest) hw hle
    rw [hloop, componentLoop_cons l hb, hl]
    rcases hfails with ⟨kind, hkind, rfl⟩ | ⟨hok, hfull, rfl⟩
    · rw [hkind]
      rfl
    · have hnone : l.checkedAdd 1 = none := Length.checkedAdd_eq_none.mpr (by omega)
      rw [hok, Outcome.mapErr_ok, Outcome.ok_bind, hnone, hfull]
      rfl

/-- What `component` fails with. -/
def ComponentErr (c : Compliance) (w : List UInt8) (e : Error) : Prop :=
  (∃ b rest kind, w = b :: rest ∧ firstCompliance c b = .err kind ∧ e = ⟨0, kind⟩) ∨
    ∃ x b rest c', w = x ++ b :: rest ∧ Component c c' x ∧ x.length ≤ maxU8 ∧
      isComponentStop b = false ∧ TurnFails c' x.length b e

theorem component_eq_err {src : String} {e : Error} :
    component src c = .err e ↔ ComponentErr c (asBytes src) e := by
  rw [component, ComponentErr]
  cases asBytes src with
  | nil => simp
  | cons d bytes =>
    dsimp only
    constructor
    · intro h
      rcases Outcome.bind_eq_err.mp h with h | ⟨c', hc', h⟩
      · obtain ⟨kind, hkind, rfl⟩ := Outcome.mapErr_eq_err.mp h
        exact Or.inl ⟨d, bytes, kind, rfl, hkind, rfl⟩
      rcases Outcome.bind_eq_err.mp h with h | ⟨l, _, h⟩
      · obtain ⟨w, b, rest, rfl, hw, hle, hb, hfails⟩ := componentLoop_eq_err.mp h
        have hlen : ShortLength.one.val + w.length = (d :: w).length := Nat.add_comm 1 _
        rw [hlen] at hle hfails
        exact Or.inr ⟨d :: w, b, rest, c', rfl, ⟨d, w, rfl, Outcome.mapErr_eq_ok.mp hc', hw⟩, hle,
          hb, hfails⟩
      · cases h
    · rintro (⟨b, rest, kind, hcons, hkind, rfl⟩ | ⟨x, b, rest, c', hsplit, hx, hle, hb, hfails⟩)
      · cases hcons
        rw [hkind]
        rfl
      · obtain ⟨d', w, rfl, hd, hw⟩ := hx
        rw [List.cons_append, List.cons.injEq] at hsplit
        obtain ⟨rfl, rfl⟩ := hsplit
        have hlen : (d :: w).length = ShortLength.one.val + w.length := Nat.add_comm _ 1
        rw [hlen] at hle hfails
        rw [hd, Outcome.mapErr_ok, Outcome.ok_bind,
          componentLoop_eq_err.mpr ⟨w, b, rest, rfl, hw, hle, hb, hfails⟩]
        rfl

end Loop

theorem exists_of_threads_append {c c'' : Compliance} {xs ys : List (List UInt8)}
    (h : Threads c (xs ++ ys) c'') : ∃ c', Threads c xs c' ∧ Threads c' ys c'' := by
  induction xs generalizing c with
  | nil => exact ⟨c, .nil c, h⟩
  | cons x xs ih =>
    rw [List.cons_append] at h
    cases h with
    | cons hx hxs =>
      obtain ⟨c', hleft, hright⟩ := ih hxs
      exact ⟨c', .cons hx hleft, hright⟩

theorem Threads.unique {c c' c'' : Compliance} {xs : List (List UInt8)} (h : Threads c xs c')
    (h' : Threads c xs c'') : c' = c'' := by
  induction h with
  | nil c =>
    cases h'
    rfl
  | cons hx _ ih =>
    cases h' with
    | cons hx' hxs' =>
      obtain ⟨d, w, rfl, hd, -⟩ := hx
      obtain ⟨d', w', hcons, hd', -⟩ := hx'
      cases hcons
      cases hd.symm.trans hd'
      exact ih hxs'

/-- Where a component begins: at the start of the text, or behind a separator. -/
inductive Opened : List UInt8 → Prop
  | start : Opened []
  | behind {u : List UInt8} {s : UInt8} (hu : AlgorithmText u) (hs : isSeparator s = true)
      (hlen : u.length < 255) : Opened (u ++ [s])

/-- The component `x` is read behind `done`. -/
structure ReadsBehind (done x : List UInt8) : Prop where
  text : AlgorithmText (done ++ x)
  plain : ∀ b ∈ x, isSeparator b = false

/-- The component that begins with `x` behind `done` does not go on with `b`. -/
inductive Refused (done x : List UInt8) (b : UInt8) : Err.Kind → Prop
  | foreign (hb : isAlnum b = false) (hx : x = [] ∨ isComponentStop b = false) :
      Refused done x b .algorithmInvalidChar
  | digit (hb : isDigit b = true) (hx : x = []) (hupper : SomeStart isUpper (components done)) :
      Refused done x b .algorithmInvalidNumericPrefix
  | upper (hb : isUpper b = true) (hdigit : SomeStart isDigit (components (done ++ x))) :
      Refused done x b .invalidOciAlgorithm

/-- The compliance `c` under which a component is read behind `done`. -/
structure Behind (done : List UInt8) (c : Compliance) : Prop where
  upper : c = .distribution ↔ SomeStart isUpper (components done)
  digit : c = .oci ↔ SomeStart isDigit (components done)
  component_iff {x : List UInt8} {c' : Compliance} (hx : ∀ b ∈ x, isSeparator b = false) :
    Component c c' x ↔ Threads .universal (components (done ++ x)) c'

theorem someStart_append {p : UInt8 → Bool} {xs ys : List (List UInt8)} :
    SomeStart p (xs ++ ys) ↔ SomeStart p xs ∨ SomeStart p ys := by
  induction xs with
  | nil => simp [SomeStart]
  | cons x xs ih => rw [List.cons_append, someStart_cons, someStart_cons, ih, or_assoc]

theorem components_behind (u : List UInt8) {s : UInt8} {x : List UInt8}
    (hs : isSeparator s = true) (hx : ∀ b ∈ x, isSeparator b = false) :
    components (u ++ [s] ++ x) = components u ++ [x] := by
  rw [List.append_assoc, List.singleton_append, components, List.splitOnP_append_cons u x hs,
    List.splitOnP_eq_singleton hx]

theorem behind_start : Behind [] .universal := by
  constructor
  · decide
  · decide
  · intro x c' hx
    rw [List.nil_append, components, List.splitOnP_eq_singleton hx]
    constructor
    · intro h
      exact .cons h (.nil c')
    · intro h
      cases h with
      | cons h hnil =>
        cases hnil
        exact h

theorem behind_separator {u : List UInt8} {s : UInt8} {c : Compliance}
    (hu : Threads .universal (components u) c) (hs : isSeparator s = true) :
    Behind (u ++ [s]) c := by
  have hlast : components (u ++ [s]) = components u ++ [[]] := by
    have h := components_behind u (x := []) hs (by simp)
    rwa [List.append_nil] at h
  have hnil : ∀ p : UInt8 → Bool, ¬SomeStart p [[]] := by simp [SomeStart]
  obtain ⟨hdist, hoci⟩ := hu.compliance
  constructor
  · rw [hlast, someStart_append, hdist]
    simp [hnil]
  · rw [hlast, someStart_append, hoci]
    simp [hnil]
  · intro x c' hx
    rw [components_behind u hs hx]
    constructor
    · intro h
      exact hu.append (.cons h (.nil c'))
    · intro h
      obtain ⟨d, hd, hlast⟩ := exists_of_threads_append h
      cases hu.unique hd
      cases hlast with
      | cons h hnil =>
        cases hnil
        exact h

section Behind

variable {done x : List UInt8} {c c' : Compliance}

theorem Behind.readsBehind (h : Behind done c) (hx : Component c c' x) : ReadsBehind done x :=
  ⟨algorithmText_iff.mpr ⟨c', (h.component_iff hx.noSeparator).mp hx⟩, hx.noSeparator⟩

theorem Behind.exists_component (h : Behind done c) (hx : ReadsBehind done x) :
    ∃ c', Component c c' x := by
  obtain ⟨c', hc'⟩ := algorithmText_iff.mp hx.text
  exact ⟨c', (h.component_iff hx.plain).mpr hc'⟩

theorem Behind.oci_iff (h : Behind done c) (hx : Component c c' x) :
    c' = .oci ↔ SomeStart isDigit (components (done ++ x)) := by
  have hthreads := (h.component_iff hx.noSeparator).mp hx
  rw [hthreads.compliance.2]
  simp

/-- At its start a component is refused by the byte and by the components before it. -/
theorem Behind.first_iff (h : Behind done c) {b : UInt8} {kind : Err.Kind} :
    firstCompliance c b = .err kind ↔ Refused done [] b kind := by
  rw [firstCompliance_eq_err, h.upper, h.digit]
  constructor
  · rintro (⟨hb, rfl⟩ | ⟨hb, hupper, rfl⟩ | ⟨hb, hdigit, rfl⟩)
    · exact .foreign hb (Or.inl rfl)
    · exact .digit hb rfl hupper
    · exact .upper hb (by rwa [List.append_nil])
  · intro hrefused
    cases hrefused with
    | foreign hb => exact Or.inl ⟨hb, rfl⟩
    | digit hb _ hupper => exact Or.inr (Or.inl ⟨hb, hupper, rfl⟩)
    | upper hb hdigit =>
      rw [List.append_nil] at hdigit
      exact Or.inr (Or.inr ⟨hb, hdigit, rfl⟩)

/-- Inside a component the components before it count where one begins with a digit. -/
theorem Behind.later_iff (h : Behind done c) (hx : Component c c' x) {b : UInt8}
    {kind : Err.Kind} (hstop : isComponentStop b = false) :
    checkByte c' b = .err kind ↔ Refused done x b kind := by
  have hne : x ≠ [] := by
    obtain ⟨d, w, rfl, -⟩ := hx
    exact List.cons_ne_nil d w
  rw [checkByte_eq_err, h.oci_iff hx]
  constructor
  · rintro (⟨hb, rfl⟩ | ⟨hb, hdigit, rfl⟩)
    · exact .foreign hb (Or.inr hstop)
    · exact .upper hb hdigit
  · intro hrefused
    cases hrefused with
    | foreign hb => exact Or.inl ⟨hb, rfl⟩
    | digit _ hnil => exact absurd hnil hne
    | upper hb hdigit => exact Or.inr ⟨hb, hdigit, rfl⟩

/-- Why a component cannot be read from `w` behind `done`. -/
inductive FailsBehind (done w : List UInt8) : Error → Prop
  | refused {x rest : List UInt8} {b : UInt8} {kind : Err.Kind} (hw : w = x ++ b :: rest)
      (hx : x = [] ∨ ReadsBehind done x) (hlen : x.length ≤ 255) (hkind : Refused done x b kind) :
      FailsBehind done w ⟨x.length, kind⟩
  | long {x rest : List UInt8} (hw : w = x ++ rest) (hx : ReadsBehind done x)
      (hlen : x.length = 256) : FailsBehind done w ⟨255, .algorithmTooLong⟩

theorem component_concat {b : UInt8} (hne : x ≠ []) :
    Component c c' (x ++ [b]) ↔ Component c c' x ∧ checkByte c' b = .ok () := by
  constructor
  · rintro ⟨d, w, hcons, hd, hw⟩
    cases x with
    | nil => exact absurd rfl hne
    | cons e x =>
      rw [List.cons_append, List.cons.injEq] at hcons
      obtain ⟨rfl, rfl⟩ := hcons
      exact ⟨⟨e, x, rfl, hd, fun y hy => hw y (List.mem_append_left _ hy)⟩, hw b (by simp)⟩
  · rintro ⟨⟨d, w, rfl, hd, hw⟩, hb⟩
    refine ⟨d, w ++ [b], rfl, hd, ?_⟩
    intro y hy
    rcases List.mem_append.mp hy with hy | hy
    · exact hw y hy
    · rwa [List.mem_singleton.mp hy]

theorem Behind.component_eq_err (h : Behind done c) {todo : String} {e : Error} :
    component todo c = .err e ↔ FailsBehind done (asBytes todo) e := by
  rw [Algorithm.component_eq_err]
  constructor
  · rintro (⟨b, rest, kind, hw, hkind, rfl⟩ | ⟨x, b, rest, c', hw, hx, hle, hstop, hfails⟩)
    · have hrefused : Refused done [] b kind := h.first_iff.mp hkind
      have hle : ([] : List UInt8).length ≤ 255 := Nat.zero_le _
      exact .refused hw (Or.inl rfl) hle hrefused
    · rcases hfails with ⟨kind, hkind, rfl⟩ | ⟨hok, hfull, rfl⟩
      · exact .refused hw (Or.inr (h.readsBehind hx)) hle ((h.later_iff hx hstop).mp hkind)
      · have hne : x ≠ [] := by
          rintro rfl
          cases hfull
        have hw' : asBytes todo = (x ++ [b]) ++ rest := by rw [hw, List.append_cons]
        refine .long hw' (h.readsBehind ((component_concat hne).mpr ⟨hx, hok⟩)) ?_
        rw [List.length_append, hfull]
        rfl
  · intro hfails
    cases hfails with
    | @refused x rest b kind hw hx hlen hkind =>
      by_cases hnil : x = []
      · subst hnil
        exact Or.inl ⟨b, rest, kind, hw, h.first_iff.mpr hkind, rfl⟩
      · have hstop : isComponentStop b = false := by
          cases hkind with
          | foreign _ hfirst => exact hfirst.resolve_left hnil
          | digit _ hfirst => exact absurd hfirst hnil
          | upper hb => exact (isComponentStop_of_isAlnum b (by simp [isAlnum, hb])).1
        obtain ⟨c', hc'⟩ := h.exists_component (hx.resolve_left hnil)
        exact Or.inr ⟨x, b, rest, c', hw, hc', hlen, hstop,
          Or.inl ⟨kind, (h.later_iff hc' hstop).mpr hkind, rfl⟩⟩
    | @long x rest hw hx hlen =>
      obtain ⟨c', hc'⟩ := h.exists_component hx
      rcases List.eq_nil_or_concat' x with rfl | ⟨y, b, rfl⟩
      · cases hlen
      rw [List.length_append, List.length_singleton] at hlen
      have hy : y.length = maxU8 := Nat.succ.inj hlen
      have hne : y ≠ [] := by
        rintro rfl
        cases hy
      obtain ⟨hcomponent, hb⟩ := (component_concat hne).mp hc'
      exact Or.inr ⟨y, b, rest, c', by rw [hw, List.append_cons y b rest], hcomponent, hy.le,
        not_stop_of_checkByte hb, Or.inr ⟨hb, hy, rfl⟩⟩

end Behind

theorem AlgorithmText.ascii {u : List UInt8} (h : AlgorithmText u) : ∀ b ∈ u, b < 128 := by
  obtain ⟨c, hc⟩ := algorithmText_iff.mp h
  exact fun b hb => (hc.ascii b hb).1

theorem Opened.ascii {done : List UInt8} (h : Opened done) : ∀ b ∈ done, b < 128 := by
  cases h with
  | start => simp
  | behind hu hs _ =>
    intro b hb
    rcases List.mem_append.mp hb with hb | hb
    · exact hu.ascii b hb
    · rw [List.mem_singleton.mp hb]
      exact (ascii_of_isSeparator _ hs).1

end Algorithm

namespace AlgorithmSpan

open Algorithm

/-- What is done with the component that was looked for behind the first `n` bytes. -/
def resume (src : String) (n : Nat) (found : Option (ShortLength × Compliance)) :
    Outcome Error (AlgorithmSpan × Compliance) := do
  let (m, c) ← Outcome.okOr found (⟨n, .algorithmMissing⟩ : Error)
  let l ← Outcome.okOr (ShortLength.new (n + m.val)) (⟨maxU8, .algorithmTooLong⟩ : Error)
  newLoop src l c

theorem new_start (src : String) : new src = component src .universal >>= resume src 0 := by
  rw [new]
  congr 1
  funext found
  cases found with
  | none => rfl
  | some found =>
    obtain ⟨m, c⟩ := found
    have hm : ShortLength.new (0 + m.val) = some m :=
      Length.new_eq_some.mpr (Nat.zero_add m.val)
    rw [resume, Outcome.okOr_some, Outcome.ok_bind, Outcome.ok_bind]
    dsimp only
    rw [hm, Outcome.okOr_some, Outcome.ok_bind]

theorem checkedAdd_eq_new (a : ShortLength) (n : Nat) :
    a.checkedAdd n = ShortLength.new (a.val + n) := by
  have hpos : 0 < a.val + n := Nat.add_pos_left a.pos n
  rw [Length.checkedAdd, ShortLength.new, Length.new]
  by_cases hle : a.val + n ≤ maxU8
  · rw [dif_pos hle, dif_pos ⟨hpos, hle⟩]
  · rw [dif_neg hle, dif_neg fun h => hle h.2]

/-- Behind a separator the parser goes on as it has begun. -/
theorem new_separator {u s : String} {b : UInt8} {c : Compliance} (todo : String)
    (hu : Threads .universal (components (asBytes u)) c) (hs : asBytes s = [b])
    (hb : isSeparator b = true) (hlen : len u < maxU8) :
    new (u ++ s ++ todo) = component todo c >>= resume (u ++ s ++ todo) (len (u ++ s)) := by
  have hstop : StopsAt isComponentStop (asBytes (s ++ todo)) := by
    rw [asBytes_append, hs]
    exact stopsAt_cons.mpr (ascii_of_isSeparator b hb).2.2
  have hslen := len_separator hs
  obtain ⟨l, hl, hnew⟩ := new_reaches hu (Nat.le_of_lt hlen) hstop
  have hmax : ¬maxLen (u ++ (s ++ todo)) ≤ len u := by
    have hm : MAX_LEN = maxU8 := rfl
    rw [maxLen, len_append, len_append, hslen]
    split <;> omega
  let next : ShortLength := ⟨len (u ++ s), by rw [len_append]; omega, by rw [len_append]; omega⟩
  have hadd : tryAdd l 1 = .ok next := by
    have hsum : l.val + 1 = next.val := by rw [hl, ← hslen, ← len_append]
    rw [tryAdd, Length.checkedAdd_eq_some.mpr hsum, Outcome.okOr_some]
  rw [String.append_assoc, hnew, newLoop_eq, parseNext_separator todo c hl hs hb hmax, hadd,
    Outcome.ok_bind]
  cases component todo c with
  | err e => rfl
  | panic p => rfl
  | ok found =>
    rw [Outcome.ok_bind, Outcome.ok_bind, resume]
    cases found with
    | none => rfl
    | some found =>
      obtain ⟨m, d⟩ := found
      rw [Outcome.okOr_some, Outcome.ok_bind, Outcome.ok_bind]
      dsimp only
      rw [tryAdd, checkedAdd_eq_new]
      cases ShortLength.new (next.val + m.val) <;> rfl

theorem exists_new_eq {done : String} (h : Opened (asBytes done)) :
    ∃ c, Behind (asBytes done) c ∧
      ∀ todo, new (done ++ todo) = component todo c >>= resume (done ++ todo) (len done) := by
  generalize hbytes : asBytes done = w at h
  cases h with
  | start =>
    obtain rfl : done = "" := asBytes_inj.mp hbytes
    exact ⟨.universal, behind_start, fun todo => by rw [String.empty_append]; exact new_start todo⟩
  | @behind u b hu hb hlen =>
    obtain ⟨c, hc⟩ := algorithmText_iff.mp hu
    obtain ⟨u, s, rfl, rfl, hs⟩ := exists_append_of_ascii hbytes fun d hd => (hc.ascii d hd).1
    exact ⟨c, behind_separator hc hb, fun todo => new_separator todo hc hs hb hlen⟩

/-- The errors of an algorithm. The index is counted from the start of the component that fails,
unless nothing stands where a component has to begin. -/
inductive Fails (src : String) : Error → Prop
  | missing (hsrc : Opened (asBytes src)) : Fails src ⟨len src, .algorithmMissing⟩
  | component {done w : List UInt8} {e : Error} (hsrc : asBytes src = done ++ w)
      (hdone : Opened done) (hfails : FailsBehind done w e) : Fails src e
  | long {done x rest : List UInt8} (hsrc : asBytes src = done ++ (x ++ rest))
      (hdone : Opened done) (hx : ReadsBehind done x) (hstop : StopsAt isComponentStop rest)
      (hlen : x.length ≤ 255) (hsum : 255 < (done ++ x).length) :
      Fails src ⟨255, .algorithmTooLong⟩

/-- A component that does not fit behind what was read. -/
theorem fails_of_sum {done x rest : String} {m : ShortLength} (hdone : Opened (asBytes done))
    (hx : ReadsBehind (asBytes done) (asBytes x)) (hm : m.val = len x)
    (hstop : StopsAt isComponentStop (asBytes rest))
    (hnone : ShortLength.new (len done + m.val) = none) :
    Fails (done ++ (x ++ rest)) ⟨255, .algorithmTooLong⟩ := by
  have hpos := m.pos
  have hsrc : asBytes (done ++ (x ++ rest)) = asBytes done ++ (asBytes x ++ asBytes rest) := by
    rw [asBytes_append, asBytes_append]
  have hlen : (asBytes x).length ≤ 255 := by
    rw [length_asBytes, ← hm]
    exact m.le
  refine .long hsrc hdone hx hstop hlen ?_
  by_contra hsum
  rw [List.length_append, length_asBytes, length_asBytes, ← hm] at hsum
  have hsome : ShortLength.new (len done + m.val) =
      some ⟨len done + m.val, by omega, by simp only [maxU8]; omega⟩ :=
    Length.new_eq_some.mpr rfl
  cases hnone.symm.trans hsome

/-- Behind a component and a separator, a further component has to begin. -/
theorem opened_of_separator {done x s : String} {b : UInt8} (hs : asBytes s = [b])
    (hb : isSeparator b = true) (hx : ReadsBehind (asBytes done) (asBytes x))
    (hlen : len (done ++ x) < maxU8) : Opened (asBytes (done ++ x ++ s)) := by
  rw [asBytes_append, hs, asBytes_append]
  refine .behind hx.text hb ?_
  rw [← asBytes_append, length_asBytes]
  exact hlen

/-- The induction is on what is left to read behind a separator. -/
theorem fails_of_err {done todo : String} {e : Error} (hdone : Opened (asBytes done))
    (h : new (done ++ todo) = .err e) : Fails (done ++ todo) e := by
  induction hn : len todo using Nat.strong_induction_on generalizing done todo with
  | _ n ih =>
    obtain ⟨c, hc, hnew⟩ := exists_new_eq hdone
    have hfound := component_sat todo c
    have hresume := h
    rw [hnew todo] at hresume
    rcases Outcome.bind_eq_err.mp hresume with herr | ⟨found, hok, hresume⟩
    · exact .component (asBytes_append done todo) hdone (hc.component_eq_err.mp herr)
    have hfound := hfound.of_ok hok
    cases found with
    | none =>
      obtain rfl : todo = "" := hfound
      rw [String.append_empty] at hresume ⊢
      cases hresume
      exact .missing hdone
    | some found =>
      obtain ⟨m, c'⟩ := found
      obtain ⟨x, rest, rfl, hx, hm, hstop⟩ := hfound
      have hreads := hc.readsBehind hx
      rw [resume, Outcome.okOr_some, Outcome.ok_bind] at hresume
      rcases Outcome.bind_eq_err.mp hresume with htoo | ⟨l, hl, hloop⟩
      · obtain ⟨hnone, rfl⟩ := Outcome.okOr_eq_err.mp htoo
        exact fails_of_sum hdone hreads hm hstop hnone
      have hl := Length.new_eq_some.mp (Outcome.okOr_eq_ok.mp hl)
      have hlen : l.val = len (done ++ x) := by rw [← hl, hm, len_append]
      by_cases hend : len (done ++ x) = maxU8 ∨ StopsAt isEnd (asBytes rest)
      · have hcat : done ++ (x ++ rest) = (done ++ x) ++ rest := (String.append_assoc ..).symm
        rw [hcat, newLoop_eq, parseNext_end c' hlen hend] at hloop
        cases hloop
      rw [not_or] at hend
      obtain ⟨b, hhead, hb⟩ := separator_of_stop hstop hend.2
      obtain ⟨s, after, rfl, hs⟩ := exists_separator hhead hb
      have hsplit : done ++ (x ++ (s ++ after)) = (done ++ x ++ s) ++ after := by
        simp only [String.append_assoc]
      have hopened : Opened (asBytes (done ++ x ++ s)) :=
        opened_of_separator hs hb hreads (Nat.lt_of_le_of_ne (hlen ▸ l.le) hend.1)
      have hshorter : len after < n := by
        rw [← hn, len_append, len_append, len_separator hs]
        omega
      rw [hsplit] at h ⊢
      exact ih (len after) hshorter hopened h rfl

/-- Each of these errors is returned. -/
theorem Fails.new_eq {src : String} {e : Error} (h : Fails src e) : new src = .err e := by
  cases h with
  | missing hsrc =>
    obtain ⟨c, -, hnew⟩ := exists_new_eq hsrc
    rw [← String.append_empty (s := src), hnew "", String.append_empty]
    rfl
  | @component done w e hsrc hdone hfails =>
    obtain ⟨done, todo, rfl, rfl, rfl⟩ := exists_append_of_ascii hsrc hdone.ascii
    obtain ⟨c, hc, hnew⟩ := exists_new_eq hdone
    rw [hnew todo, hc.component_eq_err.mpr hfails, Outcome.err_bind]
  | @long done x rest hsrc hdone hx hstop hlen hsum =>
    obtain ⟨done, todo, rfl, rfl, htodo⟩ := exists_append_of_ascii hsrc hdone.ascii
    obtain ⟨c, hc, hnew⟩ := exists_new_eq hdone
    obtain ⟨c', hc'⟩ := hc.exists_component hx
    obtain ⟨x, rest, rfl, rfl, rfl⟩ := exists_append_of_ascii htodo fun b hb =>
      ascii_of_isAlnum b (hc'.alnum b hb)
    obtain ⟨m, hm, hmlen⟩ := component_ok hc' (by rwa [length_asBytes] at hlen) hstop
    have hnone : ShortLength.new (len done + m.val) = none := by
      rw [List.length_append, length_asBytes, length_asBytes] at hsum
      rw [ShortLength.new, Length.new, dif_neg]
      rintro ⟨-, hle⟩
      rw [hmlen, maxU8] at hle
      omega
    rw [hnew, hm, Outcome.ok_bind, resume, Outcome.okOr_some, Outcome.ok_bind]
    dsimp only
    rw [hnone]
    rfl

/-- The algorithms that are refused, and the error that is returned. -/
theorem new_eq_err {src : String} {e : Error} : new src = .err e ↔ Fails src e := by
  constructor
  · intro h
    have hempty : "" ++ src = src := String.empty_append
    have hfails : Fails ("" ++ src) e := fails_of_err .start (hempty.symm ▸ h)
    rwa [hempty] at hfails
  · exact Fails.new_eq

end AlgorithmSpan

namespace Encoded

theorem narrow_eq_err {c : Compliance} {b : UInt8} {kind : Err.Kind} :
    narrow c b = .err kind ↔
      isHex b = false ∧ isOciOnly b = false ∧ kind = .encodedInvalidChar ∨
        isOciOnly b = true ∧ c = .distribution ∧ kind = .encodedNonLowerHex := by
  have hclass : ∀ b, isHex b = true → isOciOnly b = false := forall_byte (by decide)
  rw [narrow]
  by_cases hx : isHex b = true
  · rw [if_pos hx]
    simp [hx, hclass b hx]
  rw [if_neg hx]
  rw [Bool.not_eq_true] at hx
  by_cases ho : isOciOnly b = true
  · rw [if_pos ho]
    by_cases hc : c = .distribution
    · rw [if_neg (not_not_intro hc)]
      simp only [ho, hc, Outcome.err.injEq, true_and, Bool.true_eq_false, false_and, and_false,
        false_or]
      exact eq_comm
    · rw [if_pos hc]
      simp [ho, hc]
  · rw [if_neg ho]
    rw [Bool.not_eq_true] at ho
    simp only [hx, ho, Outcome.err.injEq, true_and, Bool.false_eq_true, false_and, or_false]
    exact eq_comm

/-- The bytes of an encoded value; a strict one is hexadecimal. -/
def Readable (strict : Prop) (u : List UInt8) : Prop :=
  ∀ b ∈ u, isHex b = true ∨ ¬strict ∧ isOciOnly b = true

theorem readable_iff {c : Compliance} {u : List UInt8} :
    Readable (c = .distribution) u ↔ ∃ c', EncodedText c u c' := by
  constructor
  · intro h
    refine ⟨_, fun b hb => (h b hb).imp_right fun hb => hb.2, rfl, fun hc b hb => ?_⟩
    exact (h b hb).resolve_right fun hb => hb.1 hc
  · rintro ⟨c', h⟩ b hb
    by_cases hc : c = .distribution
    · exact Or.inl (h.hex hc b hb)
    · exact (h.bytes b hb).imp_right fun ho => ⟨hc, ho⟩

/-- Only hexadecimal bytes leave a strict value strict. -/
theorem EncodedText.strict_iff {c c' : Compliance} {u : List UInt8} (h : EncodedText c u c') :
    c' = .distribution ↔ c = .distribution := by
  have hc' := h.compliance
  split at hc'
  · rw [hc']
  · rename_i hall
    rw [hc']
    constructor
    · intro himp
      cases himp
    · intro hc
      exact absurd (List.all_eq_true.mpr (h.hex hc)) hall

theorem EncodedText.append {c d c' : Compliance} {u v : List UInt8} (hu : EncodedText c u d)
    (hv : EncodedText d v c') : EncodedText c (u ++ v) c' := by
  induction u generalizing c with
  | nil =>
    have hd : d = c := by simpa using hu.compliance
    rwa [List.nil_append, ← hd]
  | cons b u ih =>
    obtain ⟨d', hb, hrest⟩ := narrow_ok hu
    exact ((narrow_sat c b).of_ok hb).cons (ih hrest)

theorem EncodedText.of_append {c c' : Compliance} {u : List UInt8} {b : UInt8}
    (h : EncodedText c (u ++ [b]) c') :
    ∃ d, EncodedText c u d ∧ (narrow d b).Succeeds := by
  induction u generalizing c with
  | nil =>
    obtain ⟨d, hd, -⟩ := narrow_ok h
    exact ⟨c, encodedText_nil c, d, hd⟩
  | cons e u ih =>
    obtain ⟨d, hd, hrest⟩ := narrow_ok h
    obtain ⟨d', hu, hb⟩ := ih hrest
    exact ⟨d', ((narrow_sat c e).of_ok hd).cons hu, hb⟩

/-- Why a turn of the scan at the index `n` fails. -/
def TurnFails (n : Nat) (c : Compliance) (b : UInt8) (e : Error) : Prop :=
  (∃ kind, narrow c b = .err kind ∧ e = ⟨n, kind⟩) ∨
    (narrow c b).Succeeds ∧ n = MAX_LEN ∧ e = ⟨MAX_LEN, .encodingTooLong⟩

/-- The scan fails in front of the first byte that it does not allow, or when it has read all it
may. -/
theorem scanLoop_eq_err {n : Nat} {c : Compliance} {todo : List UInt8} {e : Error}
    (hn : n ≤ MAX_LEN) : scanLoop n c todo = .err e ↔
      ∃ u b rest d, todo = u ++ b :: rest ∧ EncodedText c u d ∧ n + u.length ≤ MAX_LEN ∧
        TurnFails (n + u.length) d b e := by
  constructor
  · intro h
    induction todo generalizing n c with
    | nil => cases h
    | cons b todo ih =>
      rw [scanLoop_cons] at h
      rcases Outcome.bind_eq_err.mp h with h | ⟨d, hd, h⟩
      · obtain ⟨kind, hkind, rfl⟩ := Outcome.mapErr_eq_err.mp h
        exact ⟨[], b, todo, c, rfl, encodedText_nil c, hn, Or.inl ⟨kind, hkind, rfl⟩⟩
      have hd := Outcome.mapErr_eq_ok.mp hd
      by_cases hfull : MAX_LEN ≤ n
      · rw [if_pos hfull] at h
        cases h
        have hmax : n = MAX_LEN := Nat.le_antisymm hn hfull
        exact ⟨[], b, todo, c, rfl, encodedText_nil c, hn, Or.inr ⟨⟨d, hd⟩, hmax, by rw [hmax]⟩⟩
      · rw [if_neg hfull, saturatingAdd_one hfull] at h
        obtain ⟨u, b', rest, d', rfl, hu, hle, hfails⟩ := ih (by omega) h
        have hsum : n + 1 + u.length = n + (b :: u).length := by
          rw [List.length_cons]
          omega
        rw [hsum] at hle hfails
        exact ⟨b :: u, b', rest, d', rfl, ((narrow_sat c b).of_ok hd).cons hu, hle, hfails⟩
  · rintro ⟨u, b, rest, d, rfl, hu, hle, hfails⟩
    rw [scanLoop_append (b :: rest) hu hle, scanLoop_cons]
    rcases hfails with ⟨kind, hkind, rfl⟩ | ⟨⟨d', hd'⟩, hfull, rfl⟩
    · rw [hkind]
      rfl
    · rw [hd', Outcome.mapErr_ok, Outcome.ok_bind, if_pos hfull.ge, hfull]

/-- The errors of an encoded value. -/
inductive Fails (strict : Prop) (e : String) : Error → Prop
  | missing (he : e = "") : Fails strict e ⟨0, .encodedMissing⟩
  | foreign {u rest : List UInt8} {b : UInt8} (he : asBytes e = u ++ b :: rest)
      (hu : Readable strict u) (hlen : u.length ≤ 1024) (hb : isHex b = false)
      (ho : isOciOnly b = false) : Fails strict e ⟨u.length, .encodedInvalidChar⟩
  | nonHex {u rest : List UInt8} {b : UInt8} (he : asBytes e = u ++ b :: rest)
      (hu : Readable strict u) (hlen : u.length ≤ 1024) (hb : isOciOnly b = true)
      (hstrict : strict) : Fails strict e ⟨u.length, .encodedNonLowerHex⟩
  | long {u rest : List UInt8} (he : asBytes e = u ++ rest) (hu : Readable strict u)
      (hlen : u.length = 1025) : Fails strict e ⟨1024, .encodingTooLong⟩

end Encoded

namespace EncodedSpan

open Encoded

/-- Every error of an encoded value is one of these. -/
theorem fails_of_err {src : String} {c : Compliance} {e : Error} (h : new src c = .err e) :
    Encoded.Fails (c = .distribution) src e := by
  rcases Outcome.bind_eq_err.mp h with h | ⟨⟨n, c'⟩, hscan, h⟩
  · obtain ⟨u, b, rest, d, hsrc, hu, hle, hfails⟩ := (scanLoop_eq_err (Nat.zero_le _)).mp h
    rw [Nat.zero_add] at hle hfails
    have hread : Readable (c = .distribution) u := readable_iff.mpr ⟨d, hu⟩
    rcases hfails with ⟨kind, hkind, rfl⟩ | ⟨⟨d', hd'⟩, hfull, rfl⟩
    · rcases narrow_eq_err.mp hkind with ⟨hb, ho, rfl⟩ | ⟨hb, hd, rfl⟩
      · exact .foreign hsrc hread hle hb ho
      · exact .nonHex hsrc hread hle hb (hu.strict_iff.mp hd)
    · have hsrc' : asBytes src = (u ++ [b]) ++ rest := by rw [hsrc, List.append_cons]
      have hlonger := hu.append ((narrow_sat d b).of_ok hd')
      refine .long hsrc' (readable_iff.mpr ⟨d', hlonger⟩) ?_
      rw [List.length_append, hfull]
      rfl
  · obtain ⟨-, hn, hle⟩ := (scanLoop_sat c [] rfl (by simp) (Nat.zero_le _)).of_ok hscan
    dsimp only at hn h
    rw [Outcome.assert_true hn, Outcome.ok_bind] at h
    rcases Outcome.bind_eq_err.mp h with h | ⟨_, _, h⟩
    · obtain ⟨hnone, rfl⟩ := Outcome.okOr_eq_err.mp h
      refine .missing (len_eq_zero.mp ?_)
      by_contra hne
      have hmax : MAX_LEN ≤ maxU16 := by decide
      have hsome : LongLength.new n = some ⟨n, by omega, by omega⟩ :=
        Length.new_eq_some.mpr rfl
      cases hnone.symm.trans hsome
    · cases h

/-- A turn that fails behind what can be read fails the parser. -/
theorem new_of_turn {src : String} {c d : Compliance} {u rest : List UInt8} {b : UInt8}
    {e : Error} (hsrc : asBytes src = u ++ b :: rest) (hu : EncodedText c u d)
    (hle : u.length ≤ MAX_LEN) (hturn : TurnFails u.length d b e) : new src c = .err e := by
  have hloop := (scanLoop_eq_err (Nat.zero_le _)).mpr
    ⟨u, b, rest, d, hsrc, hu, by rwa [Nat.zero_add], by rwa [Nat.zero_add]⟩
  rw [new, hloop, Outcome.err_bind]

/-- Each of these errors is returned. -/
theorem new_of_fails {src : String} {c : Compliance} {e : Error}
    (h : Encoded.Fails (c = .distribution) src e) : new src c = .err e := by
  cases h with
  | missing he =>
    subst he
    rfl
  | foreign he hu hlen hb ho =>
    obtain ⟨d, hd⟩ := readable_iff.mp hu
    exact new_of_turn he hd hlen (Or.inl ⟨_, narrow_eq_err.mpr (Or.inl ⟨hb, ho, rfl⟩), rfl⟩)
  | nonHex he hu hlen hb hstrict =>
    obtain ⟨d, hd⟩ := readable_iff.mp hu
    have hkind := narrow_eq_err.mpr (Or.inr ⟨hb, hd.strict_iff.mpr hstrict, rfl⟩)
    exact new_of_turn he hd hlen (Or.inl ⟨_, hkind, rfl⟩)
  | @long u rest he hu hlen =>
    obtain ⟨d, hd⟩ := readable_iff.mp hu
    rcases List.eq_nil_or_concat' u with rfl | ⟨u, b, rfl⟩
    · cases hlen
    rw [List.length_append, List.length_singleton] at hlen
    have hfull : u.length = MAX_LEN := Nat.succ.inj hlen
    obtain ⟨d', hu', hb⟩ := hd.of_append
    rw [List.append_assoc, List.singleton_append] at he
    exact new_of_turn he hu' hfull.le (Or.inr ⟨hb, hfull, rfl⟩)

/-- The encoded values that are refused, and the error that is returned. -/
theorem new_eq_err {src : String} {c : Compliance} {e : Error} :
    new src c = .err e ↔ Encoded.Fails (c = .distribution) src e :=
  ⟨fails_of_err, new_of_fails⟩

end EncodedSpan

namespace Encoded

/-- The errors of the last check on an encoded value that was read. -/
inductive Invalid (strict : Prop) (a e : String) : Error → Prop
  | char {u rest : List UInt8} {b : UInt8} (ha : a = "sha256" ∨ a = "sha512")
      (he : asBytes e = u ++ b :: rest) (hu : ∀ d ∈ u, isLowerHex d = true)
      (hb : isLowerHex b = false) : Invalid strict a e ⟨u.length, .ociRegisteredDigestInvalidChar⟩
  | length (he : ∀ d ∈ asBytes e, isLowerHex d = true) (hreg : ¬Registered a e) :
      Invalid strict a e ⟨len e, .ociRegisteredAlgorithmWrongDigestLength⟩
  | short (hreg : Registered a e) (hstrict : strict) (hlen : len e < 32) :
      Invalid strict a e ⟨len e, .encodingTooShort⟩

theorem asU16_of_le {n : Nat} (h : n ≤ MAX_LEN) : asU16 n = n := by
  have hmax : MAX_LEN < maxU16 + 1 := by decide
  exact Nat.mod_eq_of_lt (Nat.lt_of_le_of_lt h hmax)

theorem lowerHexFrom_eq_err {i : Nat} {w : List UInt8} {err : Error}
    (hmax : i + w.length ≤ MAX_LEN) : lowerHexFrom i w = .err err ↔
      ∃ u b rest, w = u ++ b :: rest ∧ (∀ d ∈ u, isLowerHex d = true) ∧ isLowerHex b = false ∧
        err = ⟨i + u.length, .ociRegisteredDigestInvalidChar⟩ := by
  induction w generalizing i with
  | nil => simp [lowerHexFrom]
  | cons c w ih =>
    rw [List.length_cons] at hmax
    have hloop : lowerHexFrom i (c :: w) = if isLowerHex c then lowerHexFrom (i + 1) w
      else .err ⟨asU16 i, .ociRegisteredDigestInvalidChar⟩ := rfl
    rw [hloop, asU16_of_le (by omega)]
    by_cases hc : isLowerHex c = true
    · rw [if_pos hc, ih (by omega)]
      constructor
      · rintro ⟨u, b, rest, rfl, hu, hb, rfl⟩
        refine ⟨c :: u, b, rest, rfl, List.forall_mem_cons.mpr ⟨hc, hu⟩, hb, ?_⟩
        rw [List.length_cons, Nat.add_right_comm, Nat.add_assoc]
      · rintro ⟨u, b, rest, hsplit, hu, hb, rfl⟩
        cases u with
        | nil =>
          cases hsplit
          cases hc.symm.trans hb
        | cons d u =>
          cases hsplit
          refine ⟨u, b, rest, rfl, (List.forall_mem_cons.mp hu).2, hb, ?_⟩
          rw [List.length_cons, Nat.add_right_comm, Nat.add_assoc]
    · rw [if_neg hc]
      constructor
      · intro h
        cases h
        exact ⟨[], c, w, rfl, by simp, Bool.eq_false_iff.mpr hc, rfl⟩
      · rintro ⟨u, b, rest, hsplit, hu, hb, rfl⟩
        cases u with
        | nil => rfl
        | cons d u =>
          cases hsplit
          exact absurd (hu _ List.mem_cons_self) hc

theorem registered_of_ne {a e : String} (h : ¬(a = "sha256" ∨ a = "sha512")) : Registered a e := by
  rw [not_or] at h
  exact ⟨fun ha => absurd ha h.1, fun ha => absurd ha h.2⟩

theorem registered_iff {a e : String} (he : ∀ d ∈ asBytes e, isLowerHex d = true)
    (ha : a = "sha256" ∨ a = "sha512") :
    Registered a e ↔ a = "sha256" ∧ len e = 64 ∨ a = "sha512" ∧ len e = 128 := by
  have hne : ¬"sha256" = "sha512" := by decide
  rcases ha with rfl | rfl
  · simpa [Registered, hne] using fun _ => he
  · simpa [Registered, Ne.symm hne] using fun _ => he

/-- The check on a registered algorithm. -/
theorem validateRegistered_eq_err {a e : String} {err : Error} (hmax : len e ≤ MAX_LEN) :
    (⟨e⟩ : Encoded).validateRegisteredAlgorithms ⟨a⟩ = .err err ↔
      (a = "sha256" ∨ a = "sha512") ∧
        ((∃ u b rest, asBytes e = u ++ b :: rest ∧ (∀ d ∈ u, isLowerHex d = true) ∧
            isLowerHex b = false ∧ err = ⟨u.length, .ociRegisteredDigestInvalidChar⟩) ∨
          (∀ d ∈ asBytes e, isLowerHex d = true) ∧ ¬Registered a e ∧
            err = ⟨len e, .ociRegisteredAlgorithmWrongDigestLength⟩) := by
  have hbound : 0 + (asBytes e).length ≤ MAX_LEN := by rwa [Nat.zero_add, length_asBytes]
  rw [validateRegisteredAlgorithms]
  by_cases ha : a = "sha256" ∨ a = "sha512"
  · rw [if_pos ha, and_iff_right ha]
    rw [Outcome.bind_eq_err]
    apply or_congr
    · rw [validateAllLowerHex, lowerHexFrom_eq_err hbound]
      simp only [Nat.zero_add]
    · constructor
      · rintro ⟨_, hhex, h⟩
        have he := (lowerHexFrom_sat 0 (asBytes e)).of_ok hhex
        have hreg : ¬Registered a e := by
          rw [registered_iff he ha]
          rintro (⟨rfl, hlen⟩ | ⟨rfl, hlen⟩)
          · rw [if_pos ⟨rfl, hlen⟩] at h
            cases h
          · rw [if_neg (by simp), if_pos ⟨rfl, hlen⟩] at h
            cases h
        rw [registered_iff he ha, not_or] at hreg
        rw [if_neg hreg.1, if_neg hreg.2, asU16_of_le hmax] at h
        cases h
        exact ⟨he, by rw [registered_iff he ha, not_or]; exact hreg, rfl⟩
      · rintro ⟨he, hreg, rfl⟩
        rw [registered_iff he ha, not_or] at hreg
        refine ⟨(), lowerHexFrom_ok 0 he, ?_⟩
        rw [if_neg hreg.1, if_neg hreg.2, asU16_of_le hmax]
  · rw [if_neg ha]
    constructor
    · intro h
      cases h
    · rintro ⟨h, -⟩
      exact absurd h ha

theorem validateDistribution_eq_err {e : String} {err : Error} (hpos : 0 < len e)
    (hmax : len e ≤ MAX_LEN) : (⟨e⟩ : Encoded).validateDistribution = .err err ↔
      len e < 32 ∧ err = ⟨len e, .encodingTooShort⟩ := by
  have h16 : MAX_LEN ≤ maxU16 := by decide
  have hnew : LongLength.new (len e) = some ⟨len e, hpos, by omega⟩ :=
    Length.new_eq_some.mpr rfl
  by_cases hshort : len e ≤ 31
  · rw [validateDistribution, if_pos hshort, shortLen, if_pos (Nat.le_trans hmax h16),
      LongLength.nonzero, hnew, Outcome.ok_bind, Outcome.err.injEq, eq_comm]
    exact (and_iff_right (Nat.lt_succ_of_le hshort)).symm
  · rw [validateDistribution_ok (Nat.lt_of_not_le hshort) hmax]
    constructor
    · intro h
      cases h
    · rintro ⟨h, -⟩
      exact absurd (Nat.le_of_lt_succ h) hshort

/-- What the last check refuses. -/
theorem validateAlgorithm_eq_err {a e : String} {c : Compliance} {err : Error}
    (hpos : 0 < len e) (hmax : len e ≤ MAX_LEN) :
    (⟨e⟩ : Encoded).validateAlgorithm ⟨a⟩ c = .err err ↔
      Invalid (c = .distribution) a e err := by
  have hdist : (⟨e⟩ : Encoded).validateDistribution = .err err ↔
      len e < 32 ∧ err = ⟨len e, .encodingTooShort⟩ := validateDistribution_eq_err hpos hmax
  rw [validateAlgorithm.eq_def, Outcome.bind_eq_err, validateRegistered_eq_err hmax]
  constructor
  · rintro (⟨ha, ⟨u, b, rest, he, hu, hb, rfl⟩ | ⟨he, hreg, rfl⟩⟩ | ⟨_, hreg, h⟩)
    · exact .char ha he hu hb
    · exact .length he hreg
    · have hreg := (validateRegistered_sat ⟨e⟩ ⟨a⟩).of_ok hreg
      cases c with
      | oci => cases h
      | distribution =>
        rcases Outcome.bind_eq_err.mp h with h | ⟨_, _, h⟩
        · obtain ⟨hlen, rfl⟩ := hdist.mp h
          exact .short hreg rfl hlen
        · cases h
      | universal =>
        dsimp only at h
        split at h <;> cases h
  · intro h
    cases h with
    | char ha he hu hb => exact Or.inl ⟨ha, Or.inl ⟨_, _, _, he, hu, hb, rfl⟩⟩
    | length he hreg =>
      refine Or.inl ⟨?_, Or.inr ⟨he, hreg, rfl⟩⟩
      by_contra ha
      exact hreg (registered_of_ne ha)
    | short hreg hstrict hlen =>
      refine Or.inr ⟨(), validateRegistered_ok hreg, ?_⟩
      subst hstrict
      dsimp only
      rw [hdist.mpr ⟨hlen, rfl⟩, Outcome.err_bind]

end Encoded

namespace DigestSpan

open Algorithm Encoded

/-- The errors of a digest. That of the last check is not moved behind the colon. -/
inductive Fails (src : String) : Error → Prop
  | algorithm {e : Error} (h : AlgorithmSpan.Fails src e) : Fails src e
  | ended (ha : AlgorithmText (asBytes src)) (hlen : ByteString.len src ≤ 255) :
      Fails src ⟨ByteString.len src, .algorithmMissing⟩
  | cut {u rest : List UInt8} {s : UInt8} (hsrc : asBytes src = u ++ s :: rest)
      (ha : AlgorithmText u) (hs : isSeparator s = true) (hlen : u.length = 255) :
      Fails src ⟨255, .algorithmInvalidChar⟩
  | encoded {a e : String} {err : Error} (hsrc : src = a ++ ":" ++ e)
      (ha : AlgorithmText (asBytes a)) (hlen : ByteString.len a ≤ 255)
      (he : Encoded.Fails (SomeStart isUpper (components (asBytes a))) e err) :
      Fails src ⟨ByteString.len a + 1 + err.index, err.kind⟩
  | invalid {a e : String} {err : Error} (hsrc : src = a ++ ":" ++ e)
      (ha : AlgorithmText (asBytes a)) (hlen : ByteString.len a ≤ 255)
      (he : Readable (SomeStart isUpper (components (asBytes a))) (asBytes e)) (hne : e ≠ "")
      (hmax : ByteString.len e ≤ 1024)
      (h : Invalid (SomeStart isUpper (components (asBytes a))) a e err) : Fails src err

/-- Where no colon follows the algorithm. -/
theorem new_unclosed {a rest : String} {span : AlgorithmSpan} {c : Compliance}
    (h : AlgorithmSpan.new (a ++ rest) = .ok (span, c)) (hlen : span.length.val = ByteString.len a)
    (hcolon : ¬(asBytes rest).head? = some (byte ':')) :
    new (a ++ rest) = .err ⟨ByteString.len a,
      if rest = "" then .algorithmMissing else .algorithmInvalidChar⟩ := by
  rw [new, h, Outcome.ok_bind]
  dsimp only
  rw [ShortLength.widen_val, hlen, getElem?_append_len]
  cases hhead : (asBytes rest).head? with
  | none =>
    rw [if_pos (head?_eq_none.mp hhead)]
    rfl
  | some b =>
    have hb : b ≠ byte ':' := by
      rintro rfl
      exact hcolon hhead
    have hne : rest ≠ "" := by
      rintro rfl
      cases hhead
    rw [consumeColon, if_neg hb, if_neg hne]
    rfl

theorem encodedError_eq {a : String} {err : Error} (ha : ByteString.len a ≤ 255)
    (hindex : err.index ≤ 1024) :
    encodedError a err = ⟨ByteString.len a + 1 + err.index, err.kind⟩ := by
  have hlen : ByteString.len (a ++ ":") = ByteString.len a + 1 := len_append a ":"
  have hmax : 1024 + 256 ≤ maxU16 := by decide
  rw [encodedError, hlen, saturatingAddU16_of_le (by omega), Nat.add_comm]

theorem encoded_index_le {strict : Prop} {e : String} {err : Error}
    (h : Encoded.Fails strict e err) : err.index ≤ 1024 := by
  cases h with
  | missing => exact Nat.zero_le _
  | foreign _ _ hlen => exact hlen
  | nonHex _ _ hlen => exact hlen
  | long => exact Nat.le_refl _

/-- Where an algorithm ends before anything but a colon. -/
theorem fails_of_unclosed {a rest : String} (ha : AlgorithmText (asBytes a))
    (hlen : ByteString.len a ≤ 255) (hend : AlgorithmSpan.EndsAt a rest)
    (hcolon : ¬(asBytes rest).head? = some (byte ':')) :
    Fails (a ++ rest) ⟨ByteString.len a,
      if rest = "" then .algorithmMissing else .algorithmInvalidChar⟩ := by
  cases hhead : (asBytes rest).head? with
  | none =>
    obtain rfl := head?_eq_none.mp hhead
    rw [if_pos rfl, String.append_empty]
    exact .ended ha hlen
  | some b =>
    obtain ⟨tail, htail⟩ := List.head?_eq_some_iff.mp hhead
    have hne : rest ≠ "" := by
      rintro rfl
      cases hhead
    have hstop : isComponentStop b = true := hend.component b hhead
    have hsep : isSeparator b = true := by
      have hb : b ≠ byte ':' := by
        rintro rfl
        exact hcolon hhead
      exact ((Bool.or_eq_true _ _).mp hstop).resolve_left fun h => hb (eq_of_beq h)
    have hfull : ByteString.len a = 255 := by
      refine hend.full.resolve_right fun hstops => hcolon ?_
      rw [hhead, eq_of_beq (hstops b hhead)]
    have hsrc : asBytes (a ++ rest) = asBytes a ++ b :: tail := by
      rw [asBytes_append, htail]
    rw [if_neg hne, hfull]
    exact .cut hsrc ha hsep hfull

/-- Where a colon follows the algorithm, the encoded part or the last check is refused. -/
theorem fails_of_text {a encoded : String} {span : AlgorithmSpan} {c : Compliance} {e : Error}
    (halg : AlgorithmSpan.new (text a encoded) = .ok (span, c))
    (hlen : span.length.val = ByteString.len a) (ha : AlgorithmText (asBytes a))
    (hstrict : c = .distribution ↔ SomeStart isUpper (components (asBytes a)))
    (h : new (text a encoded) = .err e) : Fails (text a encoded) e := by
  have hle : ByteString.len a ≤ 255 := hlen ▸ span.length.le
  rw [new_text halg hlen] at h
  rcases Outcome.bind_eq_err.mp h with h | ⟨⟨espan, c'⟩, he, h⟩
  · obtain ⟨err, herr, rfl⟩ := Outcome.mapErr_eq_err.mp h
    have hfails := EncodedSpan.new_eq_err.mp herr
    rw [encodedError_eq hle (encoded_index_le hfails)]
    rw [hstrict] at hfails
    exact .encoded rfl ha hle hfails
  · obtain ⟨htext, helen, hmax⟩ := (EncodedSpan.new_sat encoded c).of_ok
      (Outcome.mapErr_eq_ok.mp he)
    dsimp only at htext helen h
    have hpos : 0 < ByteString.len encoded := helen ▸ espan.length.pos
    have hne : encoded ≠ "" := by
      rintro rfl
      exact absurd hpos (Nat.lt_irrefl 0)
    have hread := readable_iff.mpr ⟨c', htext⟩
    rcases Outcome.bind_eq_err.mp h with h | ⟨_, _, h⟩
    · have hinvalid := (validateAlgorithm_eq_err hpos hmax).mp h
      rw [htext.strict_iff, hstrict] at hinvalid
      rw [hstrict] at hread
      exact .invalid rfl ha hle hread hne hmax hinvalid
    · cases h

/-- Every error of a digest is one of these. -/
theorem fails_of_err {src : String} {e : Error} (h : new src = .err e) : Fails src e := by
  cases halg : AlgorithmSpan.new src with
  | err e' =>
    rw [new, halg] at h
    cases h
    exact .algorithm (AlgorithmSpan.new_eq_err.mp halg)
  | panic p => exact absurd halg ((AlgorithmSpan.new_sat src).ne_panic p)
  | ok r =>
    obtain ⟨span, c⟩ := r
    obtain ⟨a, rest, rfl, hthreads, hlen, hend⟩ := (AlgorithmSpan.new_sat src).of_ok halg
    dsimp only at hthreads hlen
    have ha : AlgorithmText (asBytes a) := algorithmText_iff.mpr ⟨c, hthreads⟩
    by_cases hcolon : (asBytes rest).head? = some (byte ':')
    · obtain ⟨encoded, rfl⟩ := exists_append_of_head ":" hcolon rfl (by decide)
      have hsrc : a ++ (":" ++ encoded) = text a encoded := (String.append_assoc ..).symm
      rw [hsrc] at halg h ⊢
      exact fails_of_text halg hlen ha (by simpa using hthreads.compliance.1) h
    · rw [new_unclosed halg hlen hcolon] at h
      cases h
      exact fails_of_unclosed ha (hlen ▸ span.length.le) hend hcolon

/-- An algorithm is read up to where it ends. -/
theorem exists_algorithm {a : String} (rest : String) (ha : AlgorithmText (asBytes a))
    (hlen : ByteString.len a ≤ 255) (hend : AlgorithmSpan.EndsAt a rest) :
    ∃ span c, AlgorithmSpan.new (a ++ rest) = .ok (span, c) ∧
      span.length.val = ByteString.len a ∧
      (c = .distribution ↔ SomeStart isUpper (components (asBytes a))) := by
  obtain ⟨c, hc⟩ := algorithmText_iff.mp ha
  obtain ⟨span, hspan, hspanlen⟩ := AlgorithmSpan.new_ends hc hlen hend
  exact ⟨span, c, hspan, hspanlen, by simpa using hc.compliance.1⟩

theorem exists_algorithm_text {a : String} (e : String) (ha : AlgorithmText (asBytes a))
    (hlen : ByteString.len a ≤ 255) :
    ∃ span c, AlgorithmSpan.new (text a e) = .ok (span, c) ∧
      span.length.val = ByteString.len a ∧
      (c = .distribution ↔ SomeStart isUpper (components (asBytes a))) := by
  have hread := exists_algorithm (":" ++ e) ha hlen (.of_end a (stopsAt_sep ":" rfl rfl e))
  rwa [← String.append_assoc] at hread

/-- Each of these errors is returned. -/
theorem Fails.new_eq {src : String} {e : Error} (h : Fails src e) : new src = .err e := by
  cases h with
  | algorithm h => rw [new, AlgorithmSpan.new_eq_err.mpr h, Outcome.err_bind]
  | ended ha hlen =>
    obtain ⟨span, c, hspan, hspanlen, -⟩ :=
      exists_algorithm "" ha hlen (.of_end src (stopsAt_nil _))
    have hnew := new_unclosed hspan hspanlen (by decide)
    rwa [String.append_empty] at hnew
  | @cut u rest s hsrc ha hs hlen =>
    obtain ⟨a, tail, rfl, rfl, htail⟩ := exists_append_of_ascii hsrc ha.ascii
    obtain ⟨-, hcolon, hstop⟩ := ascii_of_isSeparator s hs
    rw [length_asBytes] at hlen
    have hend : AlgorithmSpan.EndsAt a tail := by
      refine ⟨?_, Or.inl hlen⟩
      rw [htail]
      exact stopsAt_cons.mpr hstop
    have hhead : ¬(asBytes tail).head? = some (byte ':') := by
      rw [htail]
      exact fun h => hcolon (Option.some.inj h)
    have hne : tail ≠ "" := by
      rintro rfl
      cases htail
    obtain ⟨span, c, hspan, hspanlen, -⟩ := exists_algorithm tail ha hlen.le hend
    rw [new_unclosed hspan hspanlen hhead, if_neg hne, hlen]
  | @encoded a e err hsrc ha hlen he =>
    obtain ⟨span, c, hspan, hspanlen, hstrict⟩ := exists_algorithm_text e ha hlen
    rw [← hstrict] at he
    rw [hsrc, ← text, new_text hspan hspanlen, EncodedSpan.new_eq_err.mpr he, Outcome.mapErr_err,
      Outcome.err_bind, encodedError_eq hlen (encoded_index_le he)]
  | @invalid a e err hsrc ha hlen he hne hmax h =>
    obtain ⟨span, c, hspan, hspanlen, hstrict⟩ := exists_algorithm_text e ha hlen
    rw [← hstrict] at he h
    have hpos : 0 < ByteString.len e := Nat.pos_of_ne_zero fun hzero => hne (len_eq_zero.mp hzero)
    obtain ⟨c', hc'⟩ := readable_iff.mp he
    obtain ⟨espan, hespan, -⟩ := EncodedSpan.new_ok hc' hpos hmax
    rw [← hc'.strict_iff] at h
    rw [hsrc, ← text, new_text hspan hspanlen, hespan, Outcome.mapErr_ok, Outcome.ok_bind,
      (validateAlgorithm_eq_err hpos hmax).mpr h, Outcome.err_bind]

/-- The digests that are refused, and the error that is returned. -/
theorem new_eq_err {src : String} {e : Error} : new src = .err e ↔ Fails src e :=
  ⟨fails_of_err, Fails.new_eq⟩

theorem algorithm_index_le {src : String} {e : Error} (h : AlgorithmSpan.Fails src e) :
    e.index ≤ 255 := by
  cases h with
  | missing hsrc =>
    generalize hbytes : asBytes src = w at hsrc
    have hlen : ByteString.len src = w.length := by rw [← hbytes, length_asBytes]
    dsimp only
    rw [hlen]
    cases hsrc with
    | start => exact Nat.zero_le _
    | behind _ _ hlen => rwa [List.length_append]
  | component _ _ hfails =>
    cases hfails with
    | refused _ _ hlen => exact hlen
    | long => exact Nat.le_refl _
  | long => exact Nat.le_refl _

theorem Fails.index_le {src : String} {e : Error} (h : Fails src e) : e.index ≤ 1280 := by
  cases h with
  | algorithm h => exact Nat.le_trans (algorithm_index_le h) (by decide)
  | ended _ hlen => exact Nat.le_trans hlen (by decide)
  | cut => exact (by decide : 255 ≤ 1280)
  | encoded _ _ hlen he =>
    have hindex := encoded_index_le he
    dsimp only
    omega
  | invalid hsrc _ _ _ _ hmax h =>
    cases h with
    | char _ he =>
      have hlen := congrArg List.length he
      rw [length_asBytes, List.length_append, List.length_cons] at hlen
      dsimp only
      omega
    | length => exact Nat.le_trans hmax (by decide)
    | short => exact Nat.le_trans hmax (by decide)

end DigestSpan

namespace Digest

theorem span_of_new_err {src : String} {e : Error} (h : Digest.new src = .err e) :
    DigestSpan.new src = .err e := by
  rcases Outcome.bind_eq_err.mp h with hspan | ⟨span, hspan, -⟩
  · exact hspan
  · cases (new_eq_ok.mpr ⟨span, hspan, rfl⟩).symm.trans h

/-- Every error of a digest, alone and at the end of a reference: there its index is counted from
the start of the reference. -/
theorem digest_refuses_iff (src : String) :
    (∀ e, Digest.new src = .err e ↔ DigestSpan.Fails src e) ∧
      ∀ r img, ImgRef.new r = .ok img → img.digest (ε := Empty) = .ok none →
        ∀ e, ImgRef.new (r ++ "@" ++ src) = .err e ↔
          ∃ e', DigestSpan.Fails src e' ∧ e = ⟨len r + 1 + e'.index, e'.kind⟩ := by
  constructor
  · intro e
    rw [← DigestSpan.new_eq_err]
    exact ⟨span_of_new_err, Digest.new_eq_err⟩
  · intro r img himg hnone e
    obtain ⟨p, span, rfl, hp, rfl⟩ := ImgRef.new_eq_ok.mp himg
    have hpdigest := hp.undigested hnone
    have hbound := RefSpan.len_print_le hpdigest
    have hat : len (p.print ++ "@") = len p.print + 1 := len_append p.print "@"
    have hmoved : ∀ {e'}, DigestSpan.Fails src e' → ImgRef.new (p.print ++ "@" ++ src) =
        .err ⟨len p.print + 1 + e'.index, e'.kind⟩ := by
      intro e' he'
      have hindex := he'.index_le
      have hmax : maxU8 + 1 + 129 + 1 + 1280 ≤ maxU16 := by decide
      apply ImgRef.new_eq_err
      rw [RefSpan.new_digest_err hpdigest (DigestSpan.new_eq_err.mpr he'), RefSpan.digestError, hat,
        saturatingAddU16_of_le (by omega)]
    constructor
    · intro h
      cases hd : DigestSpan.new src with
      | ok s => cases (hp.pin hpdigest hd).symm.trans h
      | panic q => exact absurd hd ((DigestSpan.new_sat src).ne_panic q)
      | err e' =>
        have he' := DigestSpan.new_eq_err.mp hd
        cases (hmoved he').symm.trans h
        exact ⟨e', he', rfl⟩
    · rintro ⟨e', he', rfl⟩
      exact hmoved he'

end Digest

end ContainerImageDistRef

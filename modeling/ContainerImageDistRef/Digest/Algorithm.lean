import ContainerImageDistRef.Err
import ContainerImageDistRef.Grammar
import ContainerImageDistRef.Span

/-! # Digest algorithms -/

namespace ContainerImageDistRef

open ByteString SeparatedList

universe u

namespace Digest

inductive Standard where
  | distribution
  | oci
  deriving DecidableEq, Repr

inductive Compliance where
  | oci
  | distribution
  | universal
  deriving DecidableEq, Repr

/-- `matches!((self, standard), ..)` -/
def Compliance.compliantWith (self : Compliance) (standard : Standard) : Bool :=
  match self, standard with
  | .universal, _ => true
  | .oci, .oci => true
  | .distribution, .distribution => true
  | _, _ => false

end Digest

namespace Algorithm

open Digest

/-- match a single separator character: matching the regular expression /[+._-]/ -/
def isSeparator (c : UInt8) : Bool :=
  c == byte '+' || c == byte '.' || c == byte '_' || c == byte '-'

def tryAdd (a : ShortLength) (b : Nat) : Outcome Error ShortLength :=
  Outcome.okOr (a.checkedAdd b) ⟨maxU8, .algorithmTooLong⟩

def MAX_LEN : Nat := 255

/-- What the first byte of a component leaves of the compliance. -/
def firstCompliance (compliance : Compliance) (c : UInt8) : Outcome Err.Kind Compliance :=
  if isLower c then .ok compliance
  else if isDigit c then
    if compliance = .distribution then .err .algorithmInvalidNumericPrefix else .ok .oci
  else if isUpper c then
    if compliance = .oci then .err .invalidOciAlgorithm else .ok .distribution
  else .err .algorithmInvalidChar

/-- The check of a later byte of a component: it narrows nothing. -/
def checkByte (compliance : Compliance) (c : UInt8) : Outcome Err.Kind Unit :=
  if isLower c || isDigit c then .ok ()
  else if isUpper c then
    match compliance with
    | .distribution | .universal => .ok ()
    | .oci => .err .invalidOciAlgorithm
  else .err .algorithmInvalidChar

/-- The bytes a component ends at. -/
def isComponentStop (c : UInt8) : Bool := c == byte ':' || isSeparator c

/-- The loop of `component` over the bytes after the first. -/
def componentLoop (compliance : Compliance) (len : ShortLength) :
    List UInt8 → Outcome Error ShortLength
  | [] => .ok len
  | c :: rest =>
    if isComponentStop c then .ok len
    else do
      (checkByte compliance c).mapErr fun kind => (⟨len.val, kind⟩ : Error)
      let len ← Outcome.okOr (len.checkedAdd 1) ⟨len.val, .algorithmTooLong⟩
      componentLoop compliance len rest

def component (src : String) (compliance : Compliance) :
    Outcome Error (Option (ShortLength × Compliance)) :=
  match asBytes src with
  | [] => .ok none
  | c :: bytes => do
    let compliance ← (firstCompliance compliance c).mapErr fun kind => (⟨0, kind⟩ : Error)
    let len ← componentLoop compliance ShortLength.one bytes
    .ok (some (len, compliance))

end Algorithm

structure AlgorithmSpan where
  length : ShortLength
  deriving DecidableEq, Repr

namespace AlgorithmSpan

open Digest Algorithm

/-- `src.len().try_into().unwrap_or(MAX_LEN)` -/
def maxLen (src : String) : Nat := if len src ≤ maxU8 then len src else MAX_LEN

/-- One turn of the loop: a separator and a component; `none` ends the loop. -/
def parseNext (src : String) (length : ShortLength) (compliance : Compliance) :
    Outcome Error (Option (ShortLength × Compliance)) :=
  if maxLen src ≤ length.val then .ok none
  else
    match (asBytes src)[length.val]? with
    | none => .panic .index
    | some c =>
      if c = byte ':' then .ok none
      else if isSeparator c then do
        let length ← tryAdd length 1
        let rest ← sliceFrom src length.val
        let next ← component rest compliance
        let (componentLen, compliance) ←
          Outcome.okOr next (⟨length.val, .algorithmMissing⟩ : Error)
        let length ← tryAdd length componentLen.val
        .ok (some (length, compliance))
      else .err ⟨length.val, .algorithmInvalidChar⟩

theorem parseNext_lt {src : String} {length next : ShortLength} {c d : Compliance}
    (h : parseNext src length c = .ok (some (next, d))) : length.val < next.val := by
  rw [parseNext] at h
  split at h
  · cases h
  · split at h
    · cases h
    · split at h
      · cases h
      · split at h
        · obtain ⟨l, hl, h⟩ := Outcome.bind_eq_ok.mp h
          obtain ⟨rest, -, h⟩ := Outcome.bind_eq_ok.mp h
          obtain ⟨n, -, h⟩ := Outcome.bind_eq_ok.mp h
          obtain ⟨⟨componentLen, d'⟩, -, h⟩ := Outcome.bind_eq_ok.mp h
          obtain ⟨m, hm, h⟩ := Outcome.bind_eq_ok.mp h
          cases h
          have h1 := Length.checkedAdd_eq_some.mp (Outcome.okOr_eq_ok.mp hl)
          have h2 := Length.checkedAdd_eq_some.mp (Outcome.okOr_eq_ok.mp hm)
          omega
        · cases h

/-- The loop of `AlgorithmSpan::new`. Every turn makes the span longer. -/
def newLoop (src : String) (length : ShortLength) (compliance : Compliance) :
    Outcome Error (AlgorithmSpan × Compliance) :=
  match _h : parseNext src length compliance with
  | .ok none => .ok (⟨length⟩, compliance)
  | .ok (some (next, compliance)) => newLoop src next compliance
  | .err e => .err e
  | .panic p => .panic p
termination_by maxU8 - length.val
decreasing_by
  have := parseNext_lt _h
  have := next.le
  omega

def new (src : String) : Outcome Error (AlgorithmSpan × Compliance) := do
  let first ← component src .universal
  let (length, compliance) ← Outcome.okOr first (⟨0, .algorithmMissing⟩ : Error)
  newLoop src length compliance

def fromExactMatch (src : String) : Outcome Error (AlgorithmSpan × Compliance) := do
  let (span, compliance) ← new src
  if span.length.val = len src then .ok (span, compliance)
  else .err ⟨span.length.val, .algorithmMissing⟩

end AlgorithmSpan

structure Algorithm where
  src : String
  deriving DecidableEq, Repr

namespace Algorithm

open Digest

def toStr (algorithm : Algorithm) : String := algorithm.src

def fromSpan {ε : Type u} (src : String) (span : AlgorithmSpan) : Outcome ε Algorithm := do
  let text ← sliceTo src span.length.val
  .ok ⟨text⟩

def new (src : String) : Outcome Error (Algorithm × Compliance) := do
  let (span, compliance) ← AlgorithmSpan.new src
  let algorithm ← fromSpan src span
  .ok (algorithm, compliance)

def fromExactMatch (src : String) : Outcome Error (Algorithm × Compliance) := do
  let (span, compliance) ← AlgorithmSpan.fromExactMatch src
  let algorithm ← fromSpan src span
  .ok (algorithm, compliance)

def parts (algorithm : Algorithm) : List String :=
  (algorithm.toStr.split fun c => isSeparator c.toUInt8).toList.map String.Slice.copy

/-- The loop of `Algorithm::compliance` over the bytes after the first. -/
def complianceLoop {ε : Type u} : List UInt8 → Outcome ε Compliance
  | [] => .ok .universal
  | c :: rest =>
    if isLower c || isDigit c then complianceLoop rest
    else if isUpper c then .ok .distribution
    else .panic .unreachable

def compliance {ε : Type u} (algorithm : Algorithm) : Outcome ε Compliance :=
  match asBytes algorithm.src with
  | [] => .panic .unreachable
  | c :: bytes =>
    if isLower c then complianceLoop bytes
    else if isDigit c then .ok .oci
    else if isUpper c then .ok .distribution
    else .panic .unreachable

end Algorithm

namespace Algorithm

open Digest

/-- A component read under the compliance `c` that leaves the compliance `c'`. -/
def Component (c c' : Compliance) (x : List UInt8) : Prop :=
  ∃ d w, x = d :: w ∧ firstCompliance c d = .ok c' ∧ ∀ e ∈ w, checkByte c' e = .ok ()

/-- The compliance threaded through the components from left to right. -/
inductive Threads : Compliance → List (List UInt8) → Compliance → Prop
  | nil (c : Compliance) : Threads c [] c
  | cons {c c' c'' : Compliance} {x : List UInt8} {xs : List (List UInt8)}
      (hx : Component c c' x) (hxs : Threads c' xs c'') : Threads c (x :: xs) c''

/-- The components of an algorithm text. -/
abbrev components (u : List UInt8) : List (List UInt8) := u.splitOnP isSeparator

/-- What may follow a component: nothing, or a separator and further components. -/
def Continues (c : Compliance) (u : List UInt8) (c' : Compliance) : Prop :=
  u = [] ∧ c' = c ∨ ∃ s w, u = s :: w ∧ isSeparator s = true ∧ Threads c (components w) c'

theorem firstCompliance_sat (c : Compliance) (b : UInt8) :
    (firstCompliance c b).Sat (fun _ => isAlnum b = true) fun _ => True := by
  rw [firstCompliance]
  by_cases hl : isLower b = true
  · rw [if_pos hl]
    simp [isAlnum, hl]
  rw [if_neg hl]
  by_cases hd : isDigit b = true
  · rw [if_pos hd]
    split
    · trivial
    · simp [isAlnum, hd]
  rw [if_neg hd]
  by_cases hu : isUpper b = true
  · rw [if_pos hu]
    split
    · trivial
    · simp [isAlnum, hu]
  · rw [if_neg hu]
    trivial

theorem checkByte_sat (c : Compliance) (b : UInt8) :
    (checkByte c b).Sat (fun _ => isAlnum b = true) fun _ => True := by
  rw [checkByte.eq_def]
  by_cases hl : (isLower b || isDigit b) = true
  · rw [if_pos hl]
    simp only [Bool.or_eq_true] at hl
    rcases hl with hl | hl <;> simp [isAlnum, hl]
  rw [if_neg hl]
  by_cases hu : isUpper b = true
  · rw [if_pos hu]
    cases c <;> simp [isAlnum, hu]
  · rw [if_neg hu]
    trivial

theorem Component.alnum {c c' : Compliance} {x : List UInt8} (h : Component c c' x) :
    ∀ b ∈ x, isAlnum b = true := by
  obtain ⟨d, w, rfl, hd, hw⟩ := h
  intro b hb
  rcases List.mem_cons.mp hb with rfl | hb
  · exact (firstCompliance_sat c b).of_ok hd
  · exact (checkByte_sat c' b).of_ok (hw b hb)

theorem isComponentStop_of_isAlnum :
    ∀ b : UInt8, isAlnum b = true → isComponentStop b = false ∧ isSeparator b = false ∧
      b ≠ byte ':' :=
  forall_byte (by decide)

theorem Component.noSeparator {c c' : Compliance} {x : List UInt8} (h : Component c c' x) :
    ∀ b ∈ x, isSeparator b = false :=
  fun b hb => (isComponentStop_of_isAlnum b (h.alnum b hb)).2.1

/-- The loop reads `n` bytes that it allows and meets one that it does not. -/
def LoopFails (c : Compliance) (todo : List UInt8) (n : Nat) : Prop :=
  ∃ w b rest kind, todo = w ++ b :: rest ∧ w.length = n ∧ (∀ e ∈ w, checkByte c e = .ok ()) ∧
    isComponentStop b = false ∧ checkByte c b = .err kind

theorem LoopFails.cons {c : Compliance} {b : UInt8} {todo : List UInt8} {n : Nat}
    (hb : checkByte c b = .ok ()) (h : LoopFails c todo n) : LoopFails c (b :: todo) (n + 1) := by
  obtain ⟨w, d, rest, kind, rfl, rfl, hw, hd⟩ := h
  refine ⟨b :: w, d, rest, kind, rfl, rfl, ?_, hd⟩
  intro e he
  rcases List.mem_cons.mp he with rfl | he
  · exact hb
  · exact hw e he

/-- The loop of a component reads up to a separator, a colon or the end. -/
theorem componentLoop_sat {src : String} {c : Compliance} (done : List UInt8) {todo : List UInt8}
    {len : ShortLength} (hsrc : asBytes src = done ++ todo) (hdone : ∀ b ∈ done, isAlnum b = true)
    (hlen : len.val = done.length) :
    (componentLoop c len todo).Sat
      (fun l => ∃ w rest, todo = w ++ rest ∧ (∀ e ∈ w, checkByte c e = .ok ()) ∧
        l.val = (done ++ w).length ∧ StopsAt isComponentStop rest)
      fun e => AsciiUpTo src e.index ∧
        (e.kind = .algorithmTooLong ∨ ∃ n, LoopFails c todo n ∧ e.index = len.val + n) := by
  have here : AsciiUpTo src len.val :=
    hlen ▸ asciiUpTo_of_bytes hsrc fun b hb => ascii_of_isAlnum b (hdone b hb)
  induction todo generalizing done len with
  | nil => exact ⟨[], [], rfl, by simp, by simp [hlen], stopsAt_nil _⟩
  | cons b todo ih =>
    rw [componentLoop]
    by_cases hb : isComponentStop b = true
    · rw [if_pos hb]
      exact ⟨[], b :: todo, rfl, by simp, by simp [hlen], stopsAt_cons.mpr hb⟩
    rw [if_neg hb]
    cases hok : checkByte c b with
    | panic p => exact absurd hok ((checkByte_sat c b).ne_panic p)
    | err kind =>
      exact ⟨here, Or.inr ⟨0, ⟨[], b, todo, kind, rfl, rfl, by simp, Bool.eq_false_iff.mpr hb, hok⟩,
        rfl⟩⟩
    | ok _ =>
      have halnum := (checkByte_sat c b).of_ok hok
      rw [Outcome.mapErr_ok, Outcome.ok_bind]
      refine Outcome.Sat.bind (P := fun l : ShortLength => len.val + 1 = l.val)
        (Outcome.sat_okOr (fun l hl => Length.checkedAdd_eq_some.mp hl)
          fun _ => ⟨here, Or.inl rfl⟩)
        fun l hl => ?_
      have hnext : asBytes src = (done ++ [b]) ++ todo := by simpa using hsrc
      have hall : ∀ d ∈ done ++ [b], isAlnum d = true := by
        intro d hd
        rcases List.mem_append.mp hd with hd | hd
        · exact hdone d hd
        · exact List.mem_singleton.mp hd ▸ halnum
      have hl' : l.val = (done ++ [b]).length := by simp [← hl, hlen]
      refine (ih _ hnext hall hl' (hl' ▸ asciiUpTo_of_bytes hnext fun d hd =>
        ascii_of_isAlnum d (hall d hd))).mono ?_ ?_
      · rintro l' ⟨w, rest, rfl, hw, hl'', hstop⟩
        refine ⟨b :: w, rest, rfl, ?_, by simpa using hl'', hstop⟩
        intro e he
        rcases List.mem_cons.mp he with rfl | he
        · exact hok
        · exact hw e he
      · rintro e ⟨hascii, hkind | ⟨n, hn, hindex⟩⟩
        · exact ⟨hascii, Or.inl hkind⟩
        · exact ⟨hascii, Or.inr ⟨n + 1, hn.cons hok, by omega⟩⟩

theorem componentLoop_ok {c : Compliance} {w rest : List UInt8} (len : ShortLength)
    (hw : ∀ e ∈ w, checkByte c e = .ok ()) (hlen : len.val + w.length ≤ maxU8)
    (hstop : StopsAt isComponentStop rest) :
    ∃ l, componentLoop c len (w ++ rest) = .ok l ∧ l.val = len.val + w.length := by
  induction w generalizing len with
  | nil =>
    refine ⟨len, ?_, rfl⟩
    cases rest with
    | nil => rfl
    | cons b rest => rw [List.nil_append, componentLoop, if_pos (stopsAt_cons.mp hstop)]
  | cons b w ih =>
    have hb := hw b (by simp)
    have hns : isComponentStop b = false :=
      (isComponentStop_of_isAlnum b ((checkByte_sat c b).of_ok hb)).1
    rw [List.length_cons] at hlen ⊢
    let next : ShortLength := ⟨len.val + 1, Nat.succ_pos _, by omega⟩
    have hadd : len.checkedAdd 1 = some next := Length.checkedAdd_eq_some.mpr rfl
    have hnext : next.val = len.val + 1 := rfl
    obtain ⟨l, hl, hlval⟩ := ih next (fun e he => hw e (List.mem_cons_of_mem b he))
      (by omega)
    refine ⟨l, ?_, by omega⟩
    rw [List.cons_append, componentLoop, hns]
    simp only [Bool.false_eq_true, if_false]
    rw [hb, Outcome.mapErr_ok, Outcome.ok_bind, hadd, Outcome.okOr_some, Outcome.ok_bind, hl]

/-- What `component` finds at the start of `src`. -/
def FoundComponent (c : Compliance) (src : String) : Option (ShortLength × Compliance) → Prop
  | none => src = ""
  | some (l, c') => ∃ x rest, src = x ++ rest ∧ Component c c' (asBytes x) ∧ l.val = len x ∧
      StopsAt isComponentStop (asBytes rest)

/-- A byte that a component cannot go on with after `x`. -/
inductive Stuck (c : Compliance) : List UInt8 → UInt8 → Prop
  | first {b : UInt8} {kind : Err.Kind} (hb : firstCompliance c b = .err kind) : Stuck c [] b
  | later {x : List UInt8} {b : UInt8} {c' : Compliance} {kind : Err.Kind}
      (hx : Component c c' x) (hstop : isComponentStop b = false)
      (hb : checkByte c' b = .err kind) : Stuck c x b

/-- Where `component` fails, but for its length. -/
def ComponentFails (c : Compliance) (w : List UInt8) (i : Nat) : Prop :=
  ∃ x b rest, w = x ++ b :: rest ∧ x.length = i ∧ Stuck c x b

theorem component_sat (src : String) (c : Compliance) :
    (component src c).Sat (FoundComponent c src) fun e => AsciiUpTo src e.index ∧
      (e.kind = .algorithmTooLong ∨ ComponentFails c (asBytes src) e.index) := by
  rw [component]
  cases hsrc : asBytes src with
  | nil => exact asBytes_inj.mp hsrc
  | cons d bytes =>
    dsimp only
    cases hc' : firstCompliance c d with
    | panic p => exact absurd hc' ((firstCompliance_sat c d).ne_panic p)
    | err kind =>
      exact ⟨asciiUpTo_zero src, Or.inr ⟨[], d, bytes, rfl, rfl, .first hc'⟩⟩
    | ok c' =>
      have hone : ∀ b ∈ [d], isAlnum b = true := by
        simpa using (firstCompliance_sat c d).of_ok hc'
      rw [Outcome.mapErr_ok, Outcome.ok_bind]
      refine Outcome.Sat.bind ((componentLoop_sat [d] hsrc hone rfl).mono (fun _ hl => hl) ?_) ?_
      · rintro e ⟨hascii, hkind | ⟨n, ⟨w, b, rest, kind, rfl, rfl, hw, hstop, hb⟩, hindex⟩⟩
        · exact ⟨hascii, Or.inl hkind⟩
        · refine ⟨hascii, Or.inr ⟨d :: w, b, rest, rfl, ?_, .later ⟨d, w, rfl, hc', hw⟩ hstop hb⟩⟩
          rw [hindex, List.length_cons, Nat.add_comm]
          rfl
      · rintro l ⟨w, rest, rfl, hw, hl, hstop⟩
        have hcomp : Component c c' (d :: w) := ⟨d, w, rfl, hc', hw⟩
        obtain ⟨x, r, rfl, hx, rfl⟩ := exists_append_of_ascii (l := d :: w) hsrc fun b hb =>
          ascii_of_isAlnum b (hcomp.alnum b hb)
        refine ⟨x, r, rfl, hx ▸ hcomp, ?_, hstop⟩
        rw [hl, len, hx]
        rfl

theorem component_ok {c c' : Compliance} {x rest : String} (hx : Component c c' (asBytes x))
    (hlen : len x ≤ maxU8) (hstop : StopsAt isComponentStop (asBytes rest)) :
    ∃ l, component (x ++ rest) c = .ok (some (l, c')) ∧ l.val = len x := by
  obtain ⟨d, w, hdw, hd, hw⟩ := hx
  have hxlen : len x = w.length + 1 := by rw [len, hdw]; rfl
  have hone : ShortLength.one.val = 1 := rfl
  obtain ⟨l, hl, hlval⟩ := componentLoop_ok ShortLength.one hw (by omega) hstop
  refine ⟨l, ?_, by omega⟩
  have hbytes : asBytes (x ++ rest) = d :: (w ++ asBytes rest) := by
    rw [asBytes_append, hdw]
    rfl
  rw [component, hbytes]
  dsimp only
  rw [hd, Outcome.mapErr_ok, Outcome.ok_bind, hl, Outcome.ok_bind]

end Algorithm

namespace Algorithm

open Digest

/-- Components after a first one. -/
theorem threads_append {c c' c'' : Compliance} {x u : List UInt8} (hx : Component c c' x)
    (hu : Continues c' u c'') : Threads c (components (x ++ u)) c'' := by
  rcases hu with ⟨rfl, rfl⟩ | ⟨s, w, rfl, hs, hw⟩
  · rw [List.append_nil, components, List.splitOnP_eq_singleton hx.noSeparator]
    exact .cons hx (.nil _)
  · rw [components, List.splitOnP_append_cons x w hs, List.splitOnP_eq_singleton hx.noSeparator]
    exact .cons hx hw

theorem exists_of_threads {c c'' : Compliance} {w : List UInt8}
    (h : Threads c (components w) c'') :
    ∃ x u c', w = x ++ u ∧ Component c c' x ∧ Continues c' u c'' := by
  obtain ⟨rest, hw, hstop⟩ := exists_before isSeparator w
  have hx : ∀ b ∈ before isSeparator w, isSeparator b = false := fun b hb =>
    eq_false_of_mem_before hb
  generalize before isSeparator w = x at hw hx
  subst hw
  cases rest with
  | nil =>
    rw [List.append_nil, components, List.splitOnP_eq_singleton hx] at h
    cases h with
    | cons hc hnil =>
      cases hnil
      exact ⟨x, [], c'', rfl, hc, Or.inl ⟨rfl, rfl⟩⟩
  | cons s w =>
    have hs := stopsAt_cons.mp hstop
    rw [components, List.splitOnP_append_cons x w hs, List.splitOnP_eq_singleton hx] at h
    cases h with
    | cons hc hw => exact ⟨x, s :: w, _, rfl, hc, Or.inr ⟨s, w, rfl, hs, hw⟩⟩

theorem ascii_of_isSeparator : ∀ b : UInt8, isSeparator b = true →
    b < 128 ∧ b ≠ byte ':' ∧ isComponentStop b = true :=
  forall_byte (by decide)

/-- The bytes of the components, and the separators between them, are ASCII. -/
theorem Continues.ascii {c c' : Compliance} {u : List UInt8} (h : Continues c u c') :
    ∀ b ∈ u, b < 128 ∧ b ≠ byte ':' := by
  induction hn : u.length using Nat.strong_induction_on generalizing u c with
  | _ n ih =>
    rcases h with ⟨rfl, -⟩ | ⟨s, w, rfl, hs, hw⟩
    · simp
    · obtain ⟨x, v, d, rfl, hx, hv⟩ := exists_of_threads hw
      intro b hb
      rw [List.mem_cons, List.mem_append] at hb
      rcases hb with rfl | hb | hb
      · exact ⟨(ascii_of_isSeparator b hs).1, (ascii_of_isSeparator b hs).2.1⟩
      · have halnum := hx.alnum b hb
        exact ⟨ascii_of_isAlnum b halnum, (isComponentStop_of_isAlnum b halnum).2.2⟩
      · refine ih v.length ?_ hv rfl b hb
        rw [← hn, List.length_cons, List.length_append]
        omega

theorem Threads.ascii {c c' : Compliance} {w : List UInt8} (h : Threads c (components w) c') :
    ∀ b ∈ w, b < 128 ∧ b ≠ byte ':' := by
  obtain ⟨x, u, d, rfl, hx, hu⟩ := exists_of_threads h
  intro b hb
  rcases List.mem_append.mp hb with hb | hb
  · have halnum := hx.alnum b hb
    exact ⟨ascii_of_isAlnum b halnum, (isComponentStop_of_isAlnum b halnum).2.2⟩
  · exact hu.ascii b hb

end Algorithm

namespace AlgorithmSpan

open Digest Algorithm

/-- The byte an algorithm ends at. -/
def isEnd (c : UInt8) : Bool := c == byte ':'

theorem maxLen_le (src : String) : maxLen src ≤ maxU8 ∧ maxLen src ≤ len src := by
  rw [maxLen]
  split
  · rename_i h
    exact ⟨h, Nat.le_refl _⟩
  · rename_i h
    exact ⟨Nat.le_refl _, Nat.le_of_lt (Nat.lt_of_not_le h)⟩

/-- Where the loop ends: at a colon or the end, or at a separator once a u8 can count no more. -/
structure EndsAt (a rest : String) : Prop where
  component : StopsAt isComponentStop (asBytes rest)
  full : len a = maxU8 ∨ StopsAt isEnd (asBytes rest)

theorem EndsAt.of_end (a : String) {rest : String} (h : StopsAt isEnd (asBytes rest)) :
    EndsAt a rest :=
  ⟨h.mono fun b hb => by simpa [isComponentStop, isEnd] using Or.inl hb, Or.inr h⟩

/-- What a turn of the loop finds after `done`. -/
def Next (c : Compliance) (done todo : String) : Option (ShortLength × Compliance) → Prop
  | none => len done = maxU8 ∨ StopsAt isEnd (asBytes todo)
  | some (l, c') => ∃ s x rest b, todo = s ++ x ++ rest ∧ asBytes s = [b] ∧
      isSeparator b = true ∧ Component c c' (asBytes x) ∧ l.val = len (done ++ (s ++ x)) ∧
      StopsAt isComponentStop (asBytes rest)

theorem tryAdd_sat {s : String} {a : ShortLength} {n : Nat} (h : AsciiUpTo s (a.val + n)) :
    (tryAdd a n).Sat (fun l => a.val + n = l.val) fun e => AsciiUpTo s e.index := by
  apply Outcome.sat_okOr (fun l hl => Length.checkedAdd_eq_some.mp hl)
  intro hl
  have hover := Length.checkedAdd_eq_none.mp hl
  exact h.mono (by simp only; omega)

theorem ascii_separator {s : String} {b : UInt8} (hs : asBytes s = [b])
    (hb : isSeparator b = true) : IsAscii s := by
  intro d hd
  rw [hs, List.mem_singleton] at hd
  exact hd ▸ (ascii_of_isSeparator b hb).1

theorem ascii_component {c c' : Compliance} {x : String} (hx : Component c c' (asBytes x)) :
    IsAscii x :=
  fun b hb => ascii_of_isAlnum b (hx.alnum b hb)

theorem len_separator {s : String} {b : UInt8} (hs : asBytes s = [b]) : len s = 1 := by
  rw [len, hs]
  rfl

/-- A separator at the start of a string can be split off. -/
theorem exists_separator {todo : String} {b : UInt8} (hhead : (asBytes todo).head? = some b)
    (hb : isSeparator b = true) : ∃ s after, todo = s ++ after ∧ asBytes s = [b] := by
  obtain ⟨l, hl⟩ := List.head?_eq_some_iff.mp hhead
  obtain ⟨s, after, htodo, hs, -⟩ := exists_append_of_ascii (l := [b]) hl
    (by simpa using (ascii_of_isSeparator b hb).1)
  exact ⟨s, after, htodo, hs⟩

/-- The loop ends where the whole string, or what a u8 can count of it, has been read. -/
theorem next_of_maxLen {done todo : String} {length : ShortLength} (c : Compliance)
    (hlength : length.val = len done) (hmax : maxLen (done ++ todo) ≤ len done) :
    Next c done todo none := by
  have hle := length.le
  have hm : MAX_LEN = maxU8 := rfl
  rw [maxLen, len_append] at hmax
  split at hmax
  · obtain rfl : todo = "" := len_eq_zero.mp (by omega)
    exact Or.inr (stopsAt_nil _)
  · exact Or.inl (by omega)

/-- After a separator a component is read from the rest. -/
theorem parseNext_separator {done s : String} (after : String) {b : UInt8} {length : ShortLength}
    (c : Compliance) (hlength : length.val = len done) (hs : asBytes s = [b])
    (hb : isSeparator b = true) (hmax : ¬maxLen (done ++ (s ++ after)) ≤ len done) :
    parseNext (done ++ (s ++ after)) length c = (do
      let length ← tryAdd length 1
      let next ← component after c
      let (componentLen, c) ← Outcome.okOr next ⟨length.val, .algorithmMissing⟩
      let length ← tryAdd length componentLen.val
      .ok (some (length, c))) := by
  have hcat : done ++ (s ++ after) = (done ++ s) ++ after := (String.append_assoc ..).symm
  rw [parseNext, hlength, if_neg hmax, getElem?_append_len, head?_sep s hs after]
  dsimp only
  rw [if_neg (ascii_of_isSeparator b hb).2.1, if_pos hb, hcat]
  cases hadd : tryAdd length 1 with
  | err e => rfl
  | panic p => rfl
  | ok next =>
    have hnext := Length.checkedAdd_eq_some.mp (Outcome.okOr_eq_ok.mp hadd)
    have hlen : next.val = len (done ++ s) := by
      rw [← hnext, hlength, len_append, len_separator hs]
    rw [Outcome.ok_bind, Outcome.ok_bind, hlen, sliceFrom_append, Outcome.ok_bind, ← hlen]

/-- After a separator there is a component. -/
theorem parseNext_separator_sat {done s : String} (after : String) {b : UInt8}
    {length : ShortLength} (c : Compliance) (hdone : AsciiUpTo done (len done))
    (hlength : length.val = len done) (hs : asBytes s = [b]) (hb : isSeparator b = true)
    (hmax : ¬maxLen (done ++ (s ++ after)) ≤ len done) :
    (parseNext (done ++ (s ++ after)) length c).Sat (Next c done (s ++ after))
      fun e => AsciiUpTo (done ++ (s ++ after)) e.index := by
  have hcat : done ++ (s ++ after) = (done ++ s) ++ after := (String.append_assoc ..).symm
  have hds : len (done ++ s) = length.val + 1 := by rw [len_append, len_separator hs, hlength]
  have hascii : AsciiUpTo (done ++ s) (len (done ++ s)) := by
    rw [len_append]
    exact hdone.append (ascii_separator hs hb).upTo
  rw [parseNext_separator after c hlength hs hb hmax, hcat]
  apply Outcome.Sat.bind (tryAdd_sat (hds ▸ hascii.append_right after))
  intro next hnext
  rw [← hnext, ← hds]
  refine Outcome.Sat.bind ((component_sat after c).mono (fun _ hf => hf) fun e he =>
    (hascii.append he.1).mono (Nat.le_add_left _ _)) fun found hfound => ?_
  cases found with
  | none =>
    rw [Outcome.okOr_none, Outcome.err_bind]
    exact hascii.append_right after
  | some found =>
    obtain ⟨m, c'⟩ := found
    obtain ⟨x, rest, rfl, hx, hm, hrest⟩ := hfound
    rw [Outcome.okOr_some, Outcome.ok_bind]
    dsimp only
    have hto : AsciiUpTo (done ++ s ++ (x ++ rest)) (next.val + m.val) := by
      rw [← hnext, ← hds, hm]
      exact hascii.append ((ascii_component hx).upTo.append_right rest)
    apply Outcome.Sat.bind (tryAdd_sat hto)
    intro l hl
    refine ⟨s, x, rest, b, (String.append_assoc ..).symm, hs, hb, hx, ?_, hrest⟩
    rw [← hl, ← hnext, ← hds, hm, ← len_append, String.append_assoc]

theorem parseNext_sat {done : String} (todo : String) {length : ShortLength} (c : Compliance)
    (hdone : AsciiUpTo done (len done)) (hlength : length.val = len done) :
    (parseNext (done ++ todo) length c).Sat (Next c done todo)
      fun e => AsciiUpTo (done ++ todo) e.index := by
  by_cases hmax : maxLen (done ++ todo) ≤ len done
  · rw [parseNext, hlength, if_pos hmax]
    exact next_of_maxLen c hlength hmax
  cases hhead : (asBytes todo).head? with
  | none =>
    obtain rfl := head?_eq_none.mp hhead
    rw [String.append_empty] at hmax
    exact absurd (maxLen_le done).2 hmax
  | some b =>
    by_cases hsep : isSeparator b = true
    · obtain ⟨l, hl⟩ := List.head?_eq_some_iff.mp hhead
      obtain ⟨s, after, rfl, hs, -⟩ := exists_append_of_ascii (l := [b]) hl
        (by simpa using (ascii_of_isSeparator b hsep).1)
      exact parseNext_separator_sat after c hdone hlength hs hsep hmax
    · rw [parseNext, hlength, if_neg hmax, getElem?_append_len, hhead]
      dsimp only
      split
      · rename_i hcolon
        exact Or.inr (stopsAt_of_head? hhead (by simp [isEnd, hcolon]))
      · exact hdone.append_right todo

theorem newLoop_eq (src : String) (length : ShortLength) (c : Compliance) :
    newLoop src length c = parseNext src length c >>= fun next =>
      match next with
      | none => .ok (⟨length⟩, c)
      | some (next, c) => newLoop src next c := by
  rw [newLoop]
  split <;> rename_i h <;> rw [h] <;> rfl

/-- The loop reads separators and components up to a colon, to the end, or until a
u8 can count no more. -/
theorem newLoop_sat {done todo : String} {length : ShortLength} (c : Compliance)
    (hdone : AsciiUpTo done (len done)) (hlength : length.val = len done)
    (hstop : StopsAt isComponentStop (asBytes todo)) :
    (newLoop (done ++ todo) length c).Sat
      (fun r => ∃ u rest, todo = u ++ rest ∧ Continues c (asBytes u) r.2 ∧
        r.1.length.val = len (done ++ u) ∧ EndsAt (done ++ u) rest)
      fun e => AsciiUpTo (done ++ todo) e.index := by
  induction hn : len todo using Nat.strong_induction_on generalizing done todo length c with
  | _ n ih =>
    rw [newLoop_eq]
    apply Outcome.Sat.bind (parseNext_sat todo c hdone hlength)
    intro next hnext
    cases next with
    | none =>
      refine ⟨"", todo, by simp, Or.inl ⟨rfl, rfl⟩, by simpa using hlength, ?_⟩
      rw [String.append_empty]
      exact ⟨hstop, hnext⟩
    | some next =>
      obtain ⟨next, c'⟩ := next
      obtain ⟨s, x, rest, b, rfl, hs, hb, hx, hlen, hrest⟩ := hnext
      have hslen := len_separator hs
      have hcat : done ++ (s ++ x ++ rest) = (done ++ (s ++ x)) ++ rest :=
        (String.append_assoc ..).symm
      have hascii : AsciiUpTo (done ++ (s ++ x)) (len (done ++ (s ++ x))) := by
        rw [len_append]
        exact hdone.append ((ascii_separator hs hb).append (ascii_component hx)).upTo
      rw [hcat]
      refine (ih (len rest) (by rw [← hn, len_append, len_append]; omega) c' hascii hlen
        hrest rfl).mono ?_ fun e he => he
      rintro ⟨span, c''⟩ ⟨u, rest', rfl, hu, hspan, hend⟩
      have happ : done ++ (s ++ x) ++ u = done ++ (s ++ x ++ u) := by
        simp only [String.append_assoc]
      rw [happ] at hspan hend
      refine ⟨s ++ x ++ u, rest', (String.append_assoc ..).symm,
        Or.inr ⟨b, asBytes (x ++ u), ?_, hb, ?_⟩, hspan, hend⟩
      · rw [String.append_assoc, asBytes_append, hs]
        rfl
      · rw [asBytes_append]
        exact threads_append hx hu

theorem stopsAt_component {u rest : String} {c c' : Compliance}
    (hu : Continues c (asBytes u) c') (hstop : StopsAt isComponentStop (asBytes rest)) :
    StopsAt isComponentStop (asBytes (u ++ rest)) := by
  rw [asBytes_append]
  rcases hu with ⟨hnil, -⟩ | ⟨s, w, hcons, hs, -⟩
  · rw [hnil]
    exact hstop
  · rw [hcons]
    exact stopsAt_cons.mpr (ascii_of_isSeparator s hs).2.2

/-- At the end of the algorithm the loop stops. -/
theorem parseNext_end {done rest : String} {length : ShortLength} (c : Compliance)
    (hlength : length.val = len done) (hend : len done = maxU8 ∨ StopsAt isEnd (asBytes rest)) :
    parseNext (done ++ rest) length c = .ok none := by
  rw [parseNext, hlength]
  split
  · rfl
  · rename_i hmax
    have hfull : ¬len done = maxU8 := by
      have := (maxLen_le (done ++ rest)).1
      omega
    have hstop := hend.resolve_left hfull
    rw [getElem?_append_len]
    cases hhead : (asBytes rest).head? with
    | none =>
      obtain rfl := head?_eq_none.mp hhead
      rw [String.append_empty] at hmax
      exact absurd (maxLen_le done).2 hmax
    | some b =>
      dsimp only
      rw [if_pos (eq_of_beq (hstop b hhead))]

/-- A separator and a component within the limit of a u8 are read in one turn. -/
theorem parseNext_ok {done s x rest : String} {b : UInt8} {length : ShortLength}
    {c c' : Compliance} (hlength : length.val = len done) (hs : asBytes s = [b])
    (hb : isSeparator b = true) (hx : Component c c' (asBytes x))
    (hlen : len (done ++ (s ++ x)) ≤ maxU8) (hstop : StopsAt isComponentStop (asBytes rest)) :
    ∃ l, parseNext (done ++ (s ++ (x ++ rest))) length c = .ok (some (l, c')) ∧
      l.val = len (done ++ (s ++ x)) := by
  have hslen := len_separator hs
  rw [len_append, len_append, hslen] at hlen ⊢
  have hmax : ¬ maxLen (done ++ (s ++ (x ++ rest))) ≤ len done := by
    rw [maxLen, len_append, len_append, hslen]
    have hm : MAX_LEN = maxU8 := rfl
    split <;> omega
  obtain ⟨m, hm, hmlen⟩ := component_ok hx (by omega) hstop
  let next : ShortLength := ⟨length.val + 1, Nat.succ_pos _, by omega⟩
  have hadd : length.checkedAdd 1 = some next := Length.checkedAdd_eq_some.mpr rfl
  have hnext : next.val = len done + 1 := by rw [← hlength]
  let last : ShortLength := ⟨next.val + m.val, Nat.add_pos_left next.pos _, by omega⟩
  have hadd' : next.checkedAdd m.val = some last := Length.checkedAdd_eq_some.mpr rfl
  have hlast : last.val = len done + (1 + len x) := by
    simp only [last]
    omega
  refine ⟨last, ?_, hlast⟩
  rw [parseNext_separator (x ++ rest) c hlength hs hb hmax, tryAdd, hadd, Outcome.okOr_some,
    Outcome.ok_bind, hm, Outcome.ok_bind, Outcome.okOr_some, Outcome.ok_bind]
  dsimp only
  rw [tryAdd, hadd', Outcome.okOr_some, Outcome.ok_bind]

/-- The loop gets behind separators and components that a u8 can count. -/
theorem newLoop_reaches {done u rest : String} {length : ShortLength} {c c' : Compliance}
    (hu : Continues c (asBytes u) c') (hlength : length.val = len done)
    (hlen : len (done ++ u) ≤ maxU8) (hstop : StopsAt isComponentStop (asBytes rest)) :
    ∃ l, l.val = len (done ++ u) ∧
      newLoop (done ++ (u ++ rest)) length c = newLoop (done ++ (u ++ rest)) l c' := by
  induction hn : len u using Nat.strong_induction_on generalizing done u length c with
  | _ n ih =>
    rcases hu with ⟨hnil, rfl⟩ | ⟨b, w, hcons, hb, hw⟩
    · obtain rfl : u = "" := asBytes_inj.mp hnil
      exact ⟨length, by rw [String.append_empty, hlength], rfl⟩
    · obtain ⟨x, v, d, rfl, hx, hv⟩ := exists_of_threads hw
      have hsplit : asBytes u = [b] ++ (x ++ v) := hcons
      obtain ⟨s, xv, rfl, hs, hxv⟩ := exists_append_of_ascii hsplit
        (by simpa using (ascii_of_isSeparator b hb).1)
      obtain ⟨x, v, rfl, rfl, rfl⟩ := exists_append_of_ascii hxv fun e he =>
        ascii_of_isAlnum e (hx.alnum e he)
      have hslen := len_separator hs
      have hturn : s ++ (x ++ v) ++ rest = s ++ (x ++ (v ++ rest)) := by
        simp only [String.append_assoc]
      have hnext : done ++ (s ++ (x ++ (v ++ rest))) = (done ++ (s ++ x)) ++ (v ++ rest) := by
        simp only [String.append_assoc]
      have hdone : done ++ (s ++ (x ++ v)) = (done ++ (s ++ x)) ++ v := by
        simp only [String.append_assoc]
      rw [hdone] at hlen ⊢
      obtain ⟨l, hl, hllen⟩ := parseNext_ok hlength hs hb hx
        (by rw [len_append] at hlen; omega) (stopsAt_component hv hstop)
      have hshorter : len v < n := by
        rw [← hn, len_append, len_append]
        omega
      obtain ⟨l', hl', hloop⟩ := ih (len v) hshorter hv hllen hlen rfl
      refine ⟨l', hl', ?_⟩
      rw [hturn, newLoop_eq, hl, Outcome.ok_bind]
      dsimp only
      rw [hnext, hloop]

/-- A successful parse spans the components of an algorithm. -/
theorem new_sat (src : String) :
    (new src).Sat
      (fun r => ∃ a rest, src = a ++ rest ∧ Threads .universal (components (asBytes a)) r.2 ∧
        r.1.length.val = len a ∧ EndsAt a rest)
      fun e => AsciiUpTo src e.index := by
  refine Outcome.Sat.bind ((component_sat src .universal).mono (fun _ hf => hf)
    fun _ he => he.1) fun found hfound => ?_
  cases found with
  | none => exact asciiUpTo_zero src
  | some found =>
    obtain ⟨l, c⟩ := found
    obtain ⟨x, rest, rfl, hx, hl, hrest⟩ := hfound
    refine (newLoop_sat c (ascii_component hx).upTo hl hrest).mono ?_ fun e he => he
    rintro ⟨span, c'⟩ ⟨u, r, rfl, hu, hspan, hend⟩
    refine ⟨x ++ u, r, (String.append_assoc ..).symm, ?_, hspan, hend⟩
    rw [asBytes_append]
    exact threads_append hx hu

theorem new_reaches {a rest : String} {c : Compliance}
    (ha : Threads .universal (components (asBytes a)) c) (hlen : len a ≤ maxU8)
    (hstop : StopsAt isComponentStop (asBytes rest)) :
    ∃ l, l.val = len a ∧ new (a ++ rest) = newLoop (a ++ rest) l c := by
  obtain ⟨x, u, d, hxu, hx, hu⟩ := exists_of_threads ha
  obtain ⟨x, u, rfl, rfl, rfl⟩ := exists_append_of_ascii hxu fun b hb =>
    ascii_of_isAlnum b (hx.alnum b hb)
  have hxlen : len x ≤ maxU8 := by
    rw [len_append] at hlen
    omega
  obtain ⟨l, hl, hllen⟩ := component_ok hx hxlen (stopsAt_component hu hstop)
  obtain ⟨l', hl', hloop⟩ := newLoop_reaches hu hllen hlen hstop
  refine ⟨l', hl', ?_⟩
  rw [String.append_assoc, new, hl, Outcome.ok_bind, Outcome.okOr_some, Outcome.ok_bind]
  exact hloop

/-- Every algorithm that a u8 can count is parsed, up to where the loop ends. -/
theorem new_ends {a rest : String} {c : Compliance}
    (ha : Threads .universal (components (asBytes a)) c) (hlen : len a ≤ maxU8)
    (hend : EndsAt a rest) :
    ∃ span, new (a ++ rest) = .ok (span, c) ∧ span.length.val = len a := by
  obtain ⟨l, hl, hnew⟩ := new_reaches ha hlen hend.component
  refine ⟨⟨l⟩, ?_, hl⟩
  rw [hnew, newLoop_eq, parseNext_end c hl hend.full]
  rfl

/-- Every algorithm that a u8 can count is parsed to its end. -/
theorem new_ok {a : String} (rest : String) {c : Compliance}
    (ha : Threads .universal (components (asBytes a)) c) (hlen : len a ≤ maxU8)
    (hstop : StopsAt isEnd (asBytes rest)) :
    ∃ span, new (a ++ rest) = .ok (span, c) ∧ span.length.val = len a :=
  new_ends ha hlen (.of_end a hstop)

end AlgorithmSpan

namespace Algorithm

open Digest AlgorithmSpan

theorem new_of_span {a rest : String} {span : AlgorithmSpan} {c : Compliance}
    (h : AlgorithmSpan.new (a ++ rest) = .ok (span, c)) (hlen : span.length.val = len a) :
    new (a ++ rest) = .ok (⟨a⟩, c) := by
  rw [new, h, Outcome.ok_bind]
  dsimp only
  rw [fromSpan, hlen, sliceTo_append, Outcome.ok_bind, Outcome.ok_bind]

/-- What the algorithm parser reads, and where it stops. -/
theorem new_eq_ok {src : String} {a : Algorithm} {c : Compliance} (h : new src = .ok (a, c)) :
    ∃ rest, src = a.src ++ rest ∧ Threads .universal (components (asBytes a.src)) c ∧
      len a.src ≤ maxU8 ∧ EndsAt a.src rest := by
  obtain ⟨⟨span, c'⟩, hspan, -⟩ := Outcome.bind_eq_ok.mp h
  obtain ⟨a', rest, rfl, hthreads, hlen, hend⟩ := (AlgorithmSpan.new_sat src).of_ok hspan
  dsimp only at hthreads hlen
  obtain ⟨rfl, rfl⟩ := Prod.mk.inj (Outcome.ok.inj ((new_of_span hspan hlen).symm.trans h))
  exact ⟨rest, rfl, hthreads, hlen ▸ span.length.le, hend⟩

end Algorithm

end ContainerImageDistRef

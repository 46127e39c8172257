import ContainerImageDistRef.Name.Path

/-!
# The language of paths

A path is read up to its end, in one call or by extending any shorter path that
ends before one of its slashes. Cut at its slashes it gives its components.
-/

namespace ContainerImageDistRef

open ByteString Grammar SeparatedList

namespace Grammar

/-- A path is cut at its slashes into components. -/
theorem mem_path_iff_parts {u : List UInt8} :
    u ∈ path ↔ ∀ x ∈ u.splitOnP (· == byte '/'), x ∈ pathComponent := by
  apply mem_sepBy_symbol
  intro x hx c hc
  rw [beq_eq_false_iff_ne]
  rintro rfl
  exact slash_not_mem_pathComponent hx hc

/-- On the two sides of a slash are two paths. -/
theorem path_slash_iff {u v : List UInt8} :
    u ++ byte '/' :: v ∈ path ↔ u ∈ path ∧ v ∈ path := by
  have hcut := List.splitOnP_append_cons (p := (· == byte '/')) u v (beq_self_eq_true _)
  simp only [mem_path_iff_parts, hcut, List.mem_append, or_imp, forall_and]

/-- After a slash a path continues another one. -/
theorem slash_path_mem_rest {v : List UInt8} (hv : v ∈ path) : byte '/' :: v ∈ pathRest := by
  obtain ⟨x, hx, r, hr, rfl⟩ := mem_path.mp hv
  exact pathRest_cons hx hr

end Grammar

/-- The components of a text, in order. -/
structure Components (text : String) (xs : List String) : Prop where
  ne_nil : xs ≠ []
  component : ∀ x ∈ xs, asBytes x ∈ pathComponent
  joined : "/".intercalate xs = text

namespace Components

theorem single {text : String} (h : asBytes text ∈ pathComponent) : Components text [text] where
  ne_nil := by simp
  component := by simpa using h
  joined := String.intercalate_singleton

theorem cons {x text : String} {xs : List String} (hx : asBytes x ∈ pathComponent)
    (h : Components text xs) : Components (x ++ "/" ++ text) (x :: xs) where
  ne_nil := by simp
  component := by
    intro y hy
    rcases List.mem_cons.mp hy with rfl | hy
    · exact hx
    · exact h.component y hy
  joined := by rw [String.intercalate_cons_of_ne_nil h.ne_nil, h.joined]

/-- A component and a continuation of it are a list of components. -/
theorem exists_of_rest {x r : String} (hx : asBytes x ∈ pathComponent)
    (hr : asBytes r ∈ pathRest) : ∃ xs, Components (x ++ r) xs := by
  induction hn : len r using Nat.strong_induction_on generalizing x r with
  | _ n ih =>
    rcases PathSpan.exists_of_pathRest hr with rfl | ⟨w, v, rfl, hw, hv⟩
    · rw [String.append_empty]
      exact ⟨[x], single hx⟩
    · obtain ⟨xs, hxs⟩ := ih (len v) (hn ▸ PathSpan.len_after_component w v) hw hv rfl
      have hcat : x ++ ("/" ++ w ++ v) = x ++ "/" ++ (w ++ v) := by
        simp only [String.append_assoc]
      rw [hcat]
      exact ⟨x :: xs, hxs.cons hx⟩

theorem exists_of_path {text : String} (h : asBytes text ∈ Grammar.path) :
    ∃ xs, Components text xs := by
  obtain ⟨x, hx, r, hr, hxr⟩ := mem_path.mp h
  obtain ⟨u, v, rfl, rfl, rfl⟩ := exists_append_of_ascii hxr.symm fun c hc =>
    ascii_of_isComponentByte c (isComponentByte_of_mem hx c hc)
  exact exists_of_rest hx hr

theorem slash_not_mem {x : String} (hx : asBytes x ∈ pathComponent) : '/' ∉ x.toList := by
  intro hmem
  obtain ⟨l, r, hlr⟩ := List.append_of_mem hmem
  have hcut : x = String.ofList l ++ "/" ++ String.ofList r := by
    apply String.toList_inj.mp
    rw [hlr]
    simp
  apply slash_not_mem_pathComponent hx
  rw [hcut, asBytes_sep "/" rfl]
  exact List.mem_append_right _ List.mem_cons_self

/-- Cutting at the slashes gives the components back. -/
theorem split {text : String} {xs : List String} (h : Components text xs) :
    (text.split '/').toList.map String.Slice.copy = xs := by
  have hcut := String.toList_split_intercalate fun x hx => slash_not_mem (h.component x hx)
  rw [if_neg h.ne_nil] at hcut
  rw [← h.joined]
  exact hcut

end Components

namespace Path

theorem parts_eq_ok {ε : Type} {text rest : String} {xs : List String} {span : PathSpan}
    (hspan : span.length.val = len text) (h : Components text xs) :
    parts (ε := ε) ⟨text ++ rest, span⟩ = .ok xs := by
  rw [parts, toStr, hspan, sliceTo_append, Outcome.ok_bind, h.split]

end Path

namespace PathSpan

/-- What `span` says of the path `text` that it was read from. -/
structure Reads (text : String) (span : PathSpan) : Prop where
  length : span.length.val = len text
  whole : Path.new text = .ok ⟨text, span⟩
  parts : ∃ xs, Components text xs ∧ ∀ rest,
    Path.parts (ε := Empty) ⟨text ++ rest, span⟩ = .ok xs
  extended : ∀ u1 u2, u1 ++ "/" ++ u2 = text → ∃ first, new u1 = .ok first ∧
    first.extend ("/" ++ u2) = .ok span

/-- A path that ends before a slash is extended to the whole. -/
theorem extend_slash {u1 u2 : String} (h : asBytes (u1 ++ "/" ++ u2) ∈ Grammar.path)
    {span : PathSpan} (hspan : span.length.val = len (u1 ++ "/" ++ u2)) :
    ∃ first, new u1 = .ok first ∧ first.extend ("/" ++ u2) = .ok span := by
  rw [asBytes_sep "/" rfl] at h
  obtain ⟨h1, h2⟩ := path_slash_iff.mp h
  have hlen : len (u1 ++ "/" ++ u2) = len u1 + len ("/" ++ u2) := by
    rw [String.append_assoc, len_append]
  have hle : span.length.val ≤ maxU8 := span.length.le
  obtain ⟨first, hfirst, hflen⟩ := new_ok "" h1 (by omega) (stopsAt_nil _)
  have hrest : asBytes ("/" ++ u2) ∈ pathRest := slash_path_mem_rest h2
  have hnil : StopsAt isEnd (asBytes "") := stopsAt_nil _
  obtain ⟨p, hp, hplen⟩ := extend_ok first hrest (by omega) hnil
  rw [String.append_empty] at hfirst hp
  have heq : p = span := eq_of_length (by omega)
  exact ⟨first, hfirst, heq ▸ hp⟩

theorem reads_of_path {text : String} (h : asBytes text ∈ Grammar.path) {span : PathSpan}
    (hspan : span.length.val = len text) : Reads text span := by
  obtain ⟨xs, hxs⟩ := Components.exists_of_path h
  exact
    { length := hspan
      whole := by
        rw [Path.new, new_of_length h hspan, Outcome.ok_bind, Path.fromSpan,
          Outcome.assert_true hspan, Outcome.ok_bind]
      parts := ⟨xs, hxs, fun rest => Path.parts_eq_ok hspan hxs⟩
      extended := by
        rintro u1 u2 rfl
        exact extend_slash h hspan }

theorem not_isEnd_of_mem {u : List UInt8} (hu : u ∈ Grammar.path) :
    ∀ c ∈ u, isEnd c = false := by
  have hclass : ∀ c, isPathByte c = true → isEnd c = false := forall_byte (by decide)
  intro c hc
  exact hclass c (isPathByte_of_mem hu c hc)

/-- What a successful parse has read stands before the first end byte. -/
theorem reads_of_new {src : String} {span : PathSpan} (h : new src = .ok span) :
    ∃ text rest, src = text ++ rest ∧ asBytes text = before isEnd (asBytes src) ∧
      asBytes text ∈ Grammar.path ∧ Reads text span := by
  obtain ⟨text, rest, rfl, htext, hlen, hstop⟩ := (new_sat src).of_ok h
  refine ⟨text, rest, rfl, ?_, htext, reads_of_path htext hlen⟩
  rw [asBytes_append, before_append (not_isEnd_of_mem htext) hstop]

theorem succeeds_of_path {src : String} (hmem : before isEnd (asBytes src) ∈ Grammar.path)
    (hlen : (before isEnd (asBytes src)).length ≤ maxU8) : (new src).Succeeds := by
  obtain ⟨text, rest, hsrc, htext, hstop⟩ := exists_append_before fun c hc =>
    ascii_of_isPathByte c (isPathByte_of_mem hmem c hc)
  rw [← htext] at hmem hlen
  obtain ⟨span, hspan, -⟩ := new_ok rest hmem hlen hstop
  rw [hsrc]
  exact ⟨span, hspan⟩

/-- The path parser accepts exactly the paths of at most 255 bytes. -/
theorem new_iff_path (src : String) :
    ((new src).Succeeds ↔ before isEnd (asBytes src) ∈ Grammar.path ∧
        (before isEnd (asBytes src)).length ≤ 255) ∧
      ∀ span, new src = .ok span → ∃ text rest, src = text ++ rest ∧
        asBytes text = before isEnd (asBytes src) ∧ Reads text span := by
  constructor
  · constructor
    · rintro ⟨span, hspan⟩
      obtain ⟨text, rest, -, htext, hmem, hreads⟩ := reads_of_new hspan
      rw [← htext, length_asBytes, ← hreads.length]
      exact ⟨hmem, span.length.le⟩
    · rintro ⟨hmem, hlen⟩
      exact succeeds_of_path hmem hlen
  · intro span hspan
    obtain ⟨text, rest, hsrc, htext, -, hreads⟩ := reads_of_new hspan
    exact ⟨text, rest, hsrc, htext, hreads⟩

end PathSpan

end ContainerImageDistRef

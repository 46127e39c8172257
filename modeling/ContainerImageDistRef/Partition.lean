import ContainerImageDistRef.Accessors

/-!
# Parsing is a lossless partition

The parts that the accessors return, joined by their separators, are the
source. The ranges they are cut from follow one another, with one separating
byte between two of them.
-/

namespace ContainerImageDistRef

open ByteString

/-- The ranges cover everything from `start` to `stop` but one byte after each of them. -/
def Tiles (stop : Nat) : Nat → List (Nat × Nat) → Prop
  | start, [] => start = stop + 1
  | start, r :: rest => r.1 = start ∧ r.1 ≤ r.2 ∧ Tiles stop (r.2 + 1) rest

/-- The ranges of the domain, the path, the tag and the digest. -/
def ImgRef.ranges (img : ImgRef) : List (Nat × Nat) :=
  (img.span.name.domain.map fun d => (0, d.len)).toList ++ [img.span.pathRange] ++
    img.span.tagRange.toList ++
    (img.span.digestRange.map fun start => (start, len img.src)).toList

namespace View

/-- The parts that are present, in the order of the text. -/
def slices (v : View) : List String :=
  (v.domain.map Domain.toStr).toList ++ [v.path.src] ++ v.tag.toList ++
    (v.digest.map Digest.toStr).toList

/-- `[domain "/"]` -/
def pathPrefix (v : View) : String :=
  match v.domain with
  | none => ""
  | some d => d.toStr ++ "/"

/-- The parts make up the source, and a part reached in two ways is the same part. -/
structure Partitions (v : View) (src : String) : Prop where
  parts : ∃ path, v.path.toStr (ε := Empty) = .ok path ∧
    v.name.toStr (ε := Empty) = .ok (v.pathPrefix ++ path) ∧
    src = v.pathPrefix ++ path ++ tagText v.tag ++ digestText (v.digest.map Digest.toStr)
  domain : ∀ d, v.domain = some d → ∃ host, d.host (ε := Empty) = .ok host ∧
    d.port (ε := Empty) = .ok v.port ∧ d.toStr = DomainSpan.text host.toStr v.port
  port : v.domain = none → v.port = none
  digest : ∀ g, v.digest = some g → ∃ a e, g.algorithm (ε := Empty) = .ok a ∧
    g.encoded (ε := Empty) = .ok e ∧ g.toStr = DigestSpan.text a.toStr e.toStr
  name_domain : v.name.domain (ε := Empty) = .ok v.domain
  name_path : v.name.path (ε := Empty) = .ok v.path

end View

namespace Parts

variable {p : Parts} {span : RefSpan}

theorem Spans.view_pathPrefix (h : p.Spans span) : (p.view span).pathPrefix = p.pathPrefix := by
  rw [View.pathPrefix, pathPrefix]
  rcases h.view_domain with ⟨hd, hv⟩ | ⟨d, s, hd, hv, -⟩
  · rw [hd, hv]
  · rw [hd, hv]
    rfl

theorem Spans.partitions (h : p.Spans span) : (p.view span).Partitions p.print where
  parts := by
    refine ⟨p.path, path_toStr h, ?_, ?_⟩
    · rw [h.view_pathPrefix, ← name_eq]
      exact name_toStr h
    · rw [h.view_pathPrefix, ← name_eq, h.map_toStr]
      rfl
  domain := by
    intro d hd
    rcases h.view_domain with ⟨-, hv⟩ | ⟨d', s, hp, hv, hx⟩
    · cases hd.symm.trans hv
    · cases hd.symm.trans hv
      have hport : (p.view span).port = d'.port := by
        rw [view, hp]
        rfl
      refine ⟨_, host_eq hx, ?_, ?_⟩
      · rw [hport]
        exact port_eq hx
      · rw [hport]
        rfl
  port := by
    intro hd
    rcases h.view_domain with ⟨hp, -⟩ | ⟨d, s, -, hv, -⟩
    · rw [view, hp]
      rfl
    · cases hd.symm.trans hv
  digest := by
    intro g hg
    rcases h.view_digest with ⟨-, hv⟩ | ⟨d, s, -, hv, hx⟩
    · cases hg.symm.trans hv
    · cases hg.symm.trans hv
      obtain ⟨a, e, htext, ha, he⟩ := digest_eq hx
      exact ⟨_, _, ha, he, htext⟩
  name_domain := name_domain h
  name_path := name_path h

/-- The ranges in terms of the lengths of the parts. -/
theorem Spans.ranges (h : p.Spans span) :
    ImgRef.ranges ⟨p.print, span⟩ =
      (p.domain.map fun d => (0, len d.text)).toList ++ [(len p.pathPrefix, len p.name)] ++
        (p.tag.map fun t => (len p.name + 1, len p.name + 1 + len t)).toList ++
        (p.digest.map fun d => (len p.beforeDigest, len p.beforeDigest + len d)).toList := by
  have hdomain : (span.name.domain.map fun d => (0, d.len)) =
      p.domain.map fun d => (0, len d.text) := by
    rcases rel_cases h.domain with ⟨hd, hs⟩ | ⟨d, s, hd, hs, hx⟩
    · rw [hd, hs]
      rfl
    · rw [hd, hs]
      exact congrArg (fun n => some (0, n)) hx.len
  have htag : span.tagRange =
      p.tag.map fun t => (len p.name + 1, len p.name + 1 + len t) := by
    rw [RefSpan.tagRange]
    rcases rel_cases h.tag with ⟨ht, hs⟩ | ⟨t, s, ht, hs, hlen⟩
    · rw [ht, hs]
      rfl
    · have hcolon : len (p.name ++ ":") = len p.name + 1 := len_append p.name ":"
      rw [h.tagIndex ht, hcolon, ht, hs, Option.map_some, ← hlen]
      rfl
  have hdigest : (span.digestRange.map fun start => (start, len p.print)) =
      p.digest.map fun d => (len p.beforeDigest, len p.beforeDigest + len d) := by
    rw [RefSpan.digestRange]
    rcases rel_cases h.digest with ⟨hd, hs⟩ | ⟨d, s, hd, hs, -⟩
    · rw [hd, hs]
      rfl
    · rw [h.digestIndex hd, print_digest p hd, len_append, hd, hs]
      rfl
  rw [ImgRef.ranges, hdomain, h.pathRange, htag, hdigest, name_eq, len_append]

theorem tiles_digest (p : Parts) {start : Nat}
    (hstart : start = len (p.name ++ tagText p.tag) + 1) :
    Tiles (len p.print) start
      (p.digest.map fun d => (len p.beforeDigest, len p.beforeDigest + len d)).toList := by
  have hprint : len p.print = len (p.name ++ tagText p.tag) + len (digestText p.digest) := by
    rw [print, len_append]
  cases hd : p.digest with
  | none =>
    rw [hd, digestText, len_empty] at hprint
    exact hstart.trans (congrArg (· + 1) hprint.symm)
  | some d =>
    have hbefore : len p.beforeDigest = len (p.name ++ tagText p.tag) + 1 := by
      rw [beforeDigest, len_append _ "@"]
      rfl
    rw [hd, len_digestText_some] at hprint
    exact ⟨by rw [hbefore, hstart], Nat.le_add_right _ _, by simp only [Tiles]; omega⟩

theorem tiles_tag (p : Parts) :
    Tiles (len p.print) (len p.name + 1)
      ((p.tag.map fun t => (len p.name + 1, len p.name + 1 + len t)).toList ++
        (p.digest.map fun d => (len p.beforeDigest, len p.beforeDigest + len d)).toList) := by
  cases ht : p.tag with
  | none =>
    apply tiles_digest p
    rw [ht, tagText, String.append_empty]
  | some t =>
    refine ⟨rfl, Nat.le_add_right _ _, tiles_digest p ?_⟩
    rw [ht, len_append, len_tagText_some]
    dsimp only
    omega

/-- The ranges of the parts tile the text. -/
theorem Spans.tiles (h : p.Spans span) :
    Tiles (len p.print) 0 (ImgRef.ranges ⟨p.print, span⟩) := by
  have hname : len p.name = len p.pathPrefix + len p.path := by rw [name_eq, len_append]
  have htiles : Tiles (len p.print) (len p.pathPrefix) ([(len p.pathPrefix, len p.name)] ++
      ((p.tag.map fun t => (len p.name + 1, len p.name + 1 + len t)).toList ++
        (p.digest.map fun d => (len p.beforeDigest, len p.beforeDigest + len d)).toList)) :=
    ⟨rfl, by dsimp only; omega, tiles_tag p⟩
  rw [h.ranges, List.append_assoc, List.append_assoc]
  cases hd : p.domain with
  | none =>
    have hpre : len p.pathPrefix = 0 := by
      rw [pathPrefix, hd]
      rfl
    rw [hpre] at htiles
    rw [hpre]
    exact htiles
  | some d =>
    have hpre : len p.pathPrefix = len d.text + 1 := by
      rw [pathPrefix, hd]
      exact len_append d.text "/"
    exact ⟨rfl, Nat.zero_le _, hpre ▸ htiles⟩

/-- The ranges cut out the parts. -/
theorem Spans.getRange_ranges (h : p.Spans span) :
    ((ImgRef.ranges ⟨p.print, span⟩).map fun r => getRange p.print r.1 r.2) =
      (p.view span).slices.map some := by
  have hpath : getRange p.print (len p.pathPrefix) (len p.name) = some p.path := by
    rw [name_eq, len_append, print_eq, getRange_append]
  have hdomain : ((p.domain.map fun d => (0, len d.text)).toList.map
      fun r => getRange p.print r.1 r.2) =
      ((p.view span).domain.map Domain.toStr).toList.map some := by
    rcases h.view_domain with ⟨hd, hv⟩ | ⟨d, s, hd, hv, -⟩
    · rw [hd, hv]
      rfl
    · rw [hd, hv]
      exact congrArg (fun x => [x]) (getRange_domain hd)
  have htag : ((p.tag.map fun t => (len p.name + 1, len p.name + 1 + len t)).toList.map
      fun r => getRange p.print r.1 r.2) = p.tag.toList.map some := by
    cases ht : p.tag with
    | none => rfl
    | some t =>
      have hget := getRange_tag ht
      rw [len_append p.name ":"] at hget
      exact congrArg (fun x => [x]) hget
  have hdigest : ((p.digest.map fun d =>
      (len p.beforeDigest, len p.beforeDigest + len d)).toList.map
      fun r => getRange p.print r.1 r.2) = p.digest.toList.map some := by
    cases hd : p.digest with
    | none => rfl
    | some d => exact congrArg (fun x => [x]) (getRange_digest hd)
  rw [h.ranges, View.slices, h.map_toStr, List.map_append, List.map_append, List.map_append,
    hdomain, htag, hdigest, List.map_append, List.map_append, List.map_append]
  exact congrArg (fun x => _ ++ [x] ++ _ ++ _) hpath

end Parts

/-- The parts that the accessors return are a lossless partition of the source, and a
canonical reference has the same parts. -/
theorem accessors_partition (src : String) :
    (∀ img, ImgRef.new src = .ok img →
      ∃ v : View, img.Shows v ∧ v.Partitions src ∧ Tiles (len src) 0 img.ranges ∧
        (img.ranges.map fun r => getRange src r.1 r.2) = v.slices.map some) ∧
    ∀ c, CanonicalImgRef.new src = .ok c →
      ∃ img v, ImgRef.new src = .ok img ∧ img.Shows v ∧ c.Shows v := by
  constructor
  · intro img himg
    obtain ⟨p, span, rfl, hp, rfl⟩ := ImgRef.new_eq_ok.mp himg
    exact ⟨p.view span, hp.shows, hp.partitions, hp.tiles, hp.getRange_ranges⟩
  · intro c hc
    obtain ⟨p, span, rfl, hp, ⟨d, hd⟩, ⟨g, hg⟩, rfl⟩ := CanonicalImgRef.new_eq_ok.mp hc
    exact ⟨_, p.view span, ImgRef.new_eq_ok.mpr ⟨p, span, rfl, hp, rfl⟩, hp.shows,
      hp.canonical_shows hd hg⟩

theorem accessors_partition_full :
    ∃ img v c, ImgRef.new "h.io:5/a/b:t@x:0" = .ok img ∧ img.Shows v ∧
      v.Partitions "h.io:5/a/b:t@x:0" ∧ Tiles 16 0 img.ranges ∧
      CanonicalImgRef.new "h.io:5/a/b:t@x:0" = .ok c ∧ ∃ v', c.Shows v' := by
  obtain ⟨img, himg⟩ : (ImgRef.new "h.io:5/a/b:t@x:0").Succeeds := by decide +kernel
  obtain ⟨c, hc⟩ : (CanonicalImgRef.new "h.io:5/a/b:t@x:0").Succeeds := by decide +kernel
  obtain ⟨hsame, hcanonical⟩ := accessors_partition "h.io:5/a/b:t@x:0"
  obtain ⟨v, hshows, hparts, htiles, -⟩ := hsame img himg
  obtain ⟨_, v', -, -, hc'⟩ := hcanonical c hc
  exact ⟨img, v, c, himg, hshows, hparts, htiles, hc, v', hc'⟩

end ContainerImageDistRef

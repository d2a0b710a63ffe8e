import IrohWebrtc.Serve

/-!
# What the server reads

A request is confined if the file it is answered with is in ROOT. It is, wherever ROOT is
and whatever files there are, exactly when it is answered with none, as what it asks for is
malformed or a directory, or the moves of its page never go up from ROOT (`confined_iff`).
Nothing keeps them there: `/../secret` leaves ROOT.
-/

namespace IrohWebrtc

open Uri Url

/-- The file that a request is answered with is in ROOT. -/
def Server.Confined (server : Server) (url : List Char) : Prop :=
  ∀ effects, server.handle url = some effects → ∀ file response, .read file ∈ effects →
    .respond response ∈ effects → response.status = 200 → server.root.names <+: file

variable {server : Server} {url p : List Char} {seg : PathSegment} {names : List (List Char)}

/-- Moves that do not go up from ROOT stay in it. -/
theorem prefix_of_ups (h : (walk p).ups = 0)
    (hnames : (resolve server.root.path ('.' :: p)).mapM decodeURIComponent = some names) :
    server.root.names <+: names.filter (· ≠ []) := by
  obtain ⟨pre, kept, hpath, hfollows⟩ := follows_root server.root p
  rcases hfollows.within h with rfl | hdirs
  · rw [hpath, mapM_append_eq_some server.root.decoded, Option.map_eq_some_iff] at hnames
    obtain ⟨names', -, rfl⟩ := hnames
    rw [List.filter_append, Root.filter_names]
    exact List.prefix_append _ _
  · have hdecoded := server.root.decoded
    rw [hdirs] at hdecoded
    rw [← Option.some.inj hdecoded]
    exact List.nil_prefix

/-- A name longer than `n`. -/
def longName (n : ℕ) : List Char := List.replicate (n + 3) 'r'

theorem plain_longName (n : ℕ) : Plain (longName n) :=
  ⟨by simp [longName], by simp [longName, isSingleDot, List.replicate_succ],
    by simp [longName, isDoubleDot, List.replicate_succ]⟩

theorem not_mem_longName (n : ℕ) : '%' ∉ longName n := by
  simp [longName]

/-- A server whose ROOT has a long name, at the top, and that can read one file. -/
def longServer (n : ℕ) (strict : Bool) (file : List (List Char)) : Server where
  root := {
    dirs := [longName n]
    names := [longName n]
    decoded := by
      rw [mapM_cons_eq_some]
      exact ⟨_, _, decodeURIComponent_of_not_mem (not_mem_longName n), rfl, rfl⟩
    plain := fun seg hseg => List.mem_singleton.1 hseg ▸ plain_longName n
    slash := fun seg hseg => List.mem_singleton.1 hseg ▸ not_hasEscape (not_mem_longName n)
    nul := fun seg hseg => List.mem_singleton.1 hseg ▸ not_hasEscape (not_mem_longName n)
    nonempty := by simp [longName] }
  files file' := if file' = file then some [] else none
  strict := strict

/-- Moves that go up from a ROOT of a long name do not come back. -/
theorem length_lt_of_ups {n : ℕ} {strict : Bool} {file : List (List Char)}
    (h : (walk p).ups ≠ 0) (hn : ∀ seg ∈ (walk p).names, seg.length < n + 3)
    (hseg : seg ∈ resolve (longServer n strict file).root.path ('.' :: p)) :
    seg.length < n + 3 := by
  obtain ⟨pre, kept, hpath, hfollows⟩ := follows_root (longServer n strict file).root p
  have hdrive : 2 < n + 3 := by omega
  rw [hpath, List.mem_append] at hseg
  rcases hseg with hseg | hseg
  · rcases hfollows.above h seg hseg with hseg | hseg
    · cases hseg
    · obtain ⟨c, rfl, -⟩ := eq_of_isNormalizedDrive hseg
      exact hdrive
  · exact (forall_iff_of_map_norm (fun _ _ _ _ => hdrive) hfollows.names).2 hn seg hseg

theorem isSome_mapM_of_accepted {path : List PathSegment} (h : ∀ seg ∈ path, accepted true seg) :
    ∃ names, path.mapM decodeURIComponent = some names :=
  Option.isSome_iff_exists.1 (isSome_mapM.2 fun seg hseg => (accepted_iff.1 (h seg hseg)).2.2 rfl)

/-- From a ROOT of a long name, moves that go up lead to a file that is not in it. -/
theorem not_confined_of_ups (strict : Bool) (hp : page url = some p) (h : (walk p).ups ≠ 0)
    (haccepted : ∀ seg ∈ (walk p).names, accepted true seg)
    (hlast : (walk p).names.getLast? ≠ some []) :
    ∃ n file, ¬ (longServer n strict file).Confined url := by
  obtain ⟨n, hn⟩ : ∃ n, ∀ seg ∈ (walk p).names, seg.length < n + 3 := by
    refine ⟨(walk p).names.flatten.length, fun seg hseg => ?_⟩
    have hle := (List.sublist_flatten_of_mem hseg).length_le
    omega
  -- The path depends on ROOT, and not on the file.
  have hall : ∀ seg ∈ resolve (longServer n strict []).root.path ('.' :: p), accepted true seg :=
    accepted_path.2 haccepted
  obtain ⟨names, hnames⟩ := isSome_mapM_of_accepted hall
  have hslash := (forall_accepted.1 hall).1.1
  refine ⟨n, names.filter (· ≠ []), fun hconfined => ?_⟩
  have hhandle : (longServer n strict (names.filter (· ≠ []))).handle url =
      some [.read (names.filter (· ≠ [])), .respond (found p [])] := by
    have hlocation := location_pathname hnames plain_path hslash
    rw [← hlocation, Server.handle, hp, Option.bind_some]
    exact readFile_of_accepted hall hnames (mt (isDirectory_path hnames hslash).1 hlast) (if_pos rfl)
  have hpre := hconfined _ hhandle _ _ List.mem_cons_self
    (List.mem_cons_of_mem _ List.mem_cons_self) rfl
  -- ROOT's name is in the path, but all segments of this are shorter.
  have hmem : longName n ∈ names := List.mem_of_mem_filter (hpre.mem List.mem_cons_self)
  obtain ⟨seg, hseg, hdecode⟩ := exists_of_mem_mapM hnames hmem
  have hlen := length_decode hdecode
  have hlt := length_lt_of_ups h hn hseg
  rw [longName, List.length_replicate] at hlen
  omega

/-- A request is confined on all servers exactly when it is not answered with a file, for
    its URL, a name in it or that of a directory at its end, or its moves do not go up from
    ROOT. -/
theorem confined_iff (url : List Char) : (∀ server : Server, server.Confined url) ↔
    ∀ p, page url = some p → (∀ seg ∈ (walk p).names, accepted true seg) →
      (walk p).names.getLast? ≠ some [] → (walk p).ups = 0 := by
  constructor
  · intro h p hp haccepted hlast
    by_contra hups
    obtain ⟨n, file, hn⟩ := not_confined_of_ups true hp hups haccepted hlast
    exact hn (h _)
  · intro h server effects heffects file response hfile _ _
    obtain ⟨p, hp, heq | ⟨names, data, hnames, haccepted, hlast, -, -, heq⟩⟩ :=
      effects_of_handle heffects
    · subst heq
      simp at hfile
    · subst heq
      obtain rfl : file = names.filter (· ≠ []) := by simpa using hfile
      exact prefix_of_ups (h p hp haccepted hlast) hnames

/-- `/../secret` leaves ROOT. -/
theorem not_confined : ¬ (longServer 0 true ["secret".toList]).Confined "/../secret".toList := by
  intro h
  have hpre := h _ rfl ["secret".toList] _ List.mem_cons_self
    (List.mem_cons_of_mem _ List.mem_cons_self) rfl
  exact absurd hpre (by decide)

/-- `/../secret/` is a directory. -/
example : (longServer 0 true ["secret".toList]).handle "/../secret/".toList =
    some [.respond (notFound "/../secret/".toList)] := by decide

end IrohWebrtc

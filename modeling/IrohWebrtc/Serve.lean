import IrohWebrtc.Lib.Url

/-!
# The server of the demo

The server reads the file whose URL is that of the request relative to its own directory,
ROOT (`Server.handle`). The URL is decoded before it is resolved, and its path is decoded
again for the file to be read (`readFile`). A file is given by where the path leads to from
the uppermost directory, with no links between; a path that ends as those of directories do
is that of no file.

* `accepted_path`: a path can be read if what remains of the moves of the request can;
* `effects_of_handle`: a request that does not throw has one response.
-/

namespace IrohWebrtc

open Uri Url

structure Response where
  status : ℕ
  contentType : Option (List Char)
  body : List UInt8
  deriving DecidableEq

/-- What is done for a request, in order. -/
inductive Effect
  | read (file : List (List Char))
  | respond (response : Response)
  deriving DecidableEq

def ct : List (List Char × List Char) := [
  (".html".toList, "text/html".toList), (".js".toList, "text/javascript".toList),
  (".css".toList, "text/css".toList), (".wasm".toList, "application/wasm".toList),
  (".json".toList, "application/json".toList), (".ts".toList, "text/plain".toList)]

/-- The extension of the last name in a path, if something comes before it. -/
def extname (p : List Char) : List Char :=
  let name := (p.rdropWhile (· = '/')).rtakeWhile (· ≠ '/')
  let ext := name.rtakeWhile (· ≠ '.')
  if '.' ∈ name ∧ ext.length + 1 < name.length ∧ name ≠ ['.', '.'] then '.' :: ext else []

/-- The directory of the server, `new URL("./", import.meta.url)`. -/
structure Root where
  dirs : List PathSegment
  /-- The names of the directories. -/
  names : List (List Char)
  decoded : dirs.mapM decodeURIComponent = some names
  plain : ∀ seg ∈ dirs, Plain seg
  slash : ∀ seg ∈ dirs, ¬ hasEscape 0x2f seg
  nul : ∀ seg ∈ dirs, ¬ hasEscape 0 seg
  nonempty : [] ∉ names

/-- The path of the URL of the directory. -/
def Root.path (root : Root) : List PathSegment := root.dirs ++ [[]]

structure Server where
  root : Root
  /-- The contents of the files that can be read. -/
  files : List (List Char) → Option (List UInt8)
  /-- Whether a malformed escape in a path is an exception, and not an error of reading. -/
  strict : Bool

namespace Server

/-- `fs.readFile`, of the URL of a file. An escaped slash or zero is an exception. -/
def readFile (server : Server) (url : List PathSegment)
    (callback : Option (List UInt8) → List Effect) : Option (List Effect) :=
  -- Both are thrown before there is a path: a slash is no part of a name, nor is a zero.
  if hasEscape 0x2f (pathname url) ∨ hasEscape 0 (pathname url) then none
  else match decodeURIComponent (pathname url) with
    | none => if server.strict then none else some (callback none)
    | some path =>
      -- A directory cannot be read.
      match if isDirectory path then none else server.files (location path) with
      | some data => some (.read (location path) :: callback (some data))
      | none => some (callback none)

end Server

/-- The page of a request. -/
def page (url : List Char) : Option (List Char) :=
  (decodeURIComponent ((if url = [] then ['/'] else url).takeWhile (· ≠ '?'))).map fun p =>
    if p = ['/'] then "/index.html".toList else p

def notFound (p : List Char) : Response :=
  ⟨404, none, ("not found: ".toList ++ p).flatMap String.utf8EncodeChar⟩

def found (p : List Char) (data : List UInt8) : Response :=
  ⟨200, some ((ct.lookup (extname p)).getD "application/octet-stream".toList), data⟩

/-- The handler of requests, if it does not throw. -/
def Server.handle (server : Server) (url : List Char) : Option (List Effect) :=
  (page url).bind fun p =>
    server.readFile (resolve server.root.path ('.' :: p)) fun
      | none => [.respond (notFound p)]
      | some data => [.respond (found p data)]

/-- What remains of the moves of a page. -/
def walk (p : List Char) : Reduced PathSegment := reduce (moves (segments ('.' :: p)))

/-- Whether a path with this segment can be read. -/
def accepted (strict : Bool) (seg : PathSegment) : Bool :=
  ! hasEscape 0x2f seg && ! hasEscape 0 seg && (! strict || (decodeURIComponent seg).isSome)

variable {server : Server} {root : Root} {url p : List Char} {effects : List Effect}
  {seg : PathSegment} {path pre kept : List PathSegment} {strict : Bool}

/-! ## Paths -/

theorem accepted_iff : accepted strict seg ↔ ¬ hasEscape 0x2f seg ∧ ¬ hasEscape 0 seg ∧
    (strict → (decodeURIComponent seg).isSome) := by
  simp only [accepted, Bool.and_eq_true, Bool.not_eq_true', Bool.or_eq_true, Bool.not_eq_true,
    and_assoc]
  cases strict <;> simp

theorem accepted_of_not_mem (h : '%' ∉ seg) : accepted strict seg :=
  accepted_iff.2 ⟨not_hasEscape h, not_hasEscape h, fun _ => by
    rw [decodeURIComponent_of_not_mem h]; rfl⟩

theorem accepted_drive (c d : Char) (hc : c.isAlpha) (hd : d = ':' ∨ d = '|') :
    accepted strict [c, d] := by
  have hpercent : c ≠ '%' := by
    rintro rfl
    cases hc
  rcases hd with rfl | rfl <;> exact accepted_of_not_mem (by simp [hpercent.symm])

theorem Root.accepted (h : seg ∈ root.dirs) : accepted strict seg :=
  accepted_iff.2 ⟨root.slash seg h, root.nul seg h, fun _ =>
    isSome_mapM.1 (Option.isSome_iff_exists.2 ⟨_, root.decoded⟩) seg h⟩

theorem Root.shorten_path : shorten root.path = root.dirs := by
  rw [Root.path, shorten_concat, if_neg (by simp [isNormalizedDrive])]

theorem Root.filter_names : root.names.filter (· ≠ []) = root.names :=
  List.filter_eq_self.2 fun name hname => by
    rw [decide_eq_true_eq]
    rintro rfl
    exact root.nonempty hname

/-- The directory is where its URL leads. -/
theorem Root.location_path :
    (decodeURIComponent (pathname root.path)).map location = some root.names := by
  have hdecode : root.path.mapM decodeURIComponent = some (root.names ++ [[]]) := by
    rw [Root.path, mapM_append_eq_some root.decoded]
    rfl
  have hplain : ∀ seg ∈ root.path, Plain seg ∧ ¬ hasEscape 0x2f seg := by
    intro seg hseg
    rcases List.mem_append.1 hseg with hseg | hseg
    · exact ⟨root.plain seg hseg, root.slash seg hseg⟩
    · rw [List.mem_singleton.1 hseg]
      exact ⟨plain_nil, by decide⟩
  have hslash : ¬ hasEscape 0x2f (pathname root.path) := fun h => by
    obtain ⟨seg, hseg, h⟩ := hasEscape_pathname.1 h
    exact (hplain seg hseg).2 h
  rw [decode_pathname, hdecode, Option.map_some, Option.map_some,
    location_pathname hdecode (fun seg hseg => (hplain seg hseg).1) hslash, List.filter_append,
    Root.filter_names]
  simp

/-- The path of a request is what remains of ROOT, and the names that remain. -/
theorem follows_root (root : Root) (p : List Char) : ∃ pre kept,
    resolve root.path ('.' :: p) = pre ++ kept ∧ Follows root.dirs pre kept (walk p) := by
  have h := follows_resolve root.path ('.' :: p)
  rwa [Root.shorten_path] at h

/-- What holds of all segments of ROOT and of drives holds of all segments of the path of a
    request, if it holds of the names that remain. -/
theorem forall_path_iff {P : PathSegment → Prop} (hroot : ∀ seg ∈ root.dirs, P seg)
    (hdrive : ∀ c d, c.isAlpha → d = ':' ∨ d = '|' → P [c, d]) :
    (∀ seg ∈ resolve root.path ('.' :: p), P seg) ↔ ∀ seg ∈ (walk p).names, P seg := by
  obtain ⟨pre, kept, hpath, hfollows⟩ := follows_root root p
  have hpre : ∀ seg ∈ pre, P seg := by
    intro seg hseg
    rcases hfollows.mem seg hseg with hseg | hseg
    · exact hroot seg hseg
    · obtain ⟨c, rfl, hc⟩ := eq_of_isNormalizedDrive hseg
      exact hdrive c ':' hc (.inl rfl)
  rw [hpath, List.forall_mem_append, forall_iff_of_map_norm hdrive hfollows.names]
  exact and_iff_right hpre

theorem plain_path : ∀ seg ∈ resolve root.path ('.' :: p), Plain seg :=
  (forall_path_iff root.plain plain_of_isAlpha).2 fun _ => plain_of_mem_names

/-- A path can be read if what remains of the moves of the request can. -/
theorem accepted_path : (∀ seg ∈ resolve root.path ('.' :: p), accepted strict seg) ↔
    ∀ seg ∈ (walk p).names, accepted strict seg :=
  forall_path_iff (fun _ => Root.accepted) accepted_drive

/-- The path of a request is that of a directory when the last name that remains is empty. -/
theorem isDirectory_path {names : List (List Char)}
    (h : (resolve root.path ('.' :: p)).mapM decodeURIComponent = some names)
    (hslash : ¬ hasEscape 0x2f (pathname (resolve root.path ('.' :: p)))) :
    isDirectory (pathname names) ↔ (walk p).names.getLast? = some [] := by
  obtain ⟨path, seg, hpath, hlast⟩ := resolve_eq_concat root.path ('.' :: p)
  have hplain : ∀ seg ∈ resolve root.path ('.' :: p), Plain seg := plain_path
  rw [hpath] at h hslash hplain
  exact (isDirectory_pathname h hplain hslash).trans hlast

/-! ## Reading -/

section ReadFile

variable {callback : Option (List UInt8) → List Effect} {file : List (List Char)}

theorem forall_accepted : (∀ seg ∈ path, accepted strict seg) ↔
    (¬ hasEscape 0x2f (pathname path) ∧ ¬ hasEscape 0 (pathname path)) ∧
      (strict → (decodeURIComponent (pathname path)).isSome) := by
  simp only [accepted_iff, hasEscape_pathname, decode_pathname, Option.isSome_map, isSome_mapM,
    not_exists, not_and]
  exact ⟨fun h => ⟨⟨fun seg hseg => (h seg hseg).1, fun seg hseg => (h seg hseg).2.1⟩,
    fun hstrict seg hseg => (h seg hseg).2.2 hstrict⟩,
    fun h seg hseg => ⟨h.1.1 seg hseg, h.1.2 seg hseg, fun hstrict => h.2 hstrict seg hseg⟩⟩

/-- Reading throws if there is a segment that is not accepted. -/
theorem isSome_readFile :
    (server.readFile path callback).isSome ↔ ∀ seg ∈ path, accepted server.strict seg := by
  rw [forall_accepted, ← not_or, Server.readFile]
  by_cases hescape : hasEscape 0x2f (pathname path) ∨ hasEscape 0 (pathname path)
  · simp [hescape]
  · rw [if_neg hescape, and_iff_right hescape]
    rcases decodeURIComponent (pathname path) with _ | path'
    · cases server.strict <;> simp
    · cases hfile : if isDirectory path' then none else server.files (location path') <;>
        simp [hfile]

/-- A file is read where the path leads, of which all segments can be decoded, if it is no
    directory. -/
theorem readFile_eq_some (h : server.readFile path callback = some effects) :
    effects = callback none ∨ ∃ names data, path.mapM decodeURIComponent = some names ∧
      ¬ hasEscape 0x2f (pathname path) ∧ (∀ seg ∈ path, accepted true seg) ∧
      ¬ isDirectory (pathname names) ∧ server.files (location (pathname names)) = some data ∧
      effects = .read (location (pathname names)) :: callback (some data) := by
  rw [Server.readFile] at h
  by_cases hescape : hasEscape 0x2f (pathname path) ∨ hasEscape 0 (pathname path)
  · rw [if_pos hescape] at h
    cases h
  · rw [if_neg hescape] at h
    obtain ⟨hslash, hnul⟩ := not_or.1 hescape
    split at h
    · split_ifs at h
      exact .inl (Option.some.inj h).symm
    · next path' hdecode =>
      split at h
      · next data hdata =>
        obtain ⟨hdirectory, hdata⟩ := Option.ite_none_left_eq_some.1 hdata
        have haccepted : ∀ seg ∈ path, accepted true seg :=
          forall_accepted.2 ⟨⟨hslash, hnul⟩, fun _ => Option.isSome_iff_exists.2 ⟨path', hdecode⟩⟩
        rw [decode_pathname, Option.map_eq_some_iff] at hdecode
        obtain ⟨names, hnames, rfl⟩ := hdecode
        exact .inr ⟨names, data, hnames, hslash, haccepted, hdirectory, hdata,
          (Option.some.inj h).symm⟩
      · exact .inl (Option.some.inj h).symm

/-- Reading the path of plain segments. -/
theorem readFile_of_accepted {names : List (List Char)} {data : List UInt8}
    (h : ∀ seg ∈ path, accepted true seg) (hnames : path.mapM decodeURIComponent = some names)
    (hdirectory : ¬ isDirectory (pathname names))
    (hdata : server.files (location (pathname names)) = some data) :
    server.readFile path callback =
      some (.read (location (pathname names)) :: callback (some data)) := by
  obtain ⟨hescape, -⟩ := forall_accepted.1 h
  rw [Server.readFile, if_neg (not_or.2 hescape), decode_pathname, hnames, Option.map_some]
  simp only [if_neg hdirectory, hdata]

end ReadFile

/-- A request that does not throw has one response: a file that has been read, or none. -/
theorem effects_of_handle (h : server.handle url = some effects) : ∃ p, page url = some p ∧
    (effects = [.respond (notFound p)] ∨ ∃ names data,
      (resolve server.root.path ('.' :: p)).mapM decodeURIComponent = some names ∧
      (∀ seg ∈ (walk p).names, accepted true seg) ∧
      (walk p).names.getLast? ≠ some [] ∧
      location (pathname names) = names.filter (· ≠ []) ∧
      server.files (names.filter (· ≠ [])) = some data ∧
      effects = [.read (names.filter (· ≠ [])), .respond (found p data)]) := by
  rw [Server.handle, Option.bind_eq_some_iff] at h
  obtain ⟨p, hp, h⟩ := h
  refine ⟨p, hp, ?_⟩
  rcases readFile_eq_some h with
    heq | ⟨names, data, hnames, hslash, haccepted, hdirectory, hdata, heq⟩
  · exact .inl heq
  · have hlocation := location_pathname hnames plain_path hslash
    rw [hlocation] at hdata heq
    exact .inr ⟨names, data, hnames, accepted_path.1 haccepted,
      fun hlast => hdirectory ((isDirectory_path hnames hslash).2 hlast), hlocation, hdata, heq⟩

end IrohWebrtc

import IrohWebrtc.Serve

/-!
# Requests that end the server

A request is survived if it throws nothing and has one response, the contents of a file
that is read or that there is none. Only an error of reading is handled: what is thrown
before, when the URL is decoded or by `fs.readFile` for a name it does not take, ends the
server. The names it is given are those that remain of the moves of the page, so the
requests that are survived are known (`survives_iff`).
-/

namespace IrohWebrtc

open Uri Url

def responses (effects : List Effect) : List Response :=
  effects.filterMap fun
    | .read _ => none
    | .respond response => some response

/-- Nothing is thrown, and there is one response. -/
def Server.Survives (server : Server) (url : List Char) : Prop :=
  ∃ effects response, server.handle url = some effects ∧ responses effects = [response] ∧
    (response.status = 404 ∨ response.status = 200 ∧
      ∃ file, .read file ∈ effects ∧ server.files file = some response.body)

variable {server : Server} {url p : List Char}

/-- What is not thrown is survived. -/
theorem survives_iff_isSome : server.Survives url ↔ (server.handle url).isSome := by
  constructor
  · rintro ⟨effects, response, heffects, -⟩
    rw [heffects, Option.isSome_some]
  · intro h
    obtain ⟨effects, heffects⟩ := Option.isSome_iff_exists.1 h
    obtain ⟨p, -, rfl | ⟨names, data, -, -, -, -, hdata, rfl⟩⟩ := effects_of_handle heffects
    · exact ⟨_, notFound p, heffects, rfl, .inl rfl⟩
    · exact ⟨_, found p data, heffects, rfl, .inr ⟨rfl, _, List.mem_cons_self, hdata⟩⟩

/-- A request is survived exactly when its URL can be decoded, and `fs.readFile` takes the
    names that remain of the moves of its page. -/
theorem survives_iff (server : Server) (url : List Char) : server.Survives url ↔
    ∃ p, page url = some p ∧ ∀ seg ∈ (walk p).names, accepted server.strict seg := by
  rw [survives_iff_isSome, Server.handle]
  constructor
  · intro h
    obtain ⟨effects, heffects⟩ := Option.isSome_iff_exists.1 h
    obtain ⟨p, hp, hread⟩ := Option.bind_eq_some_iff.1 heffects
    have hpath := isSome_readFile.1 (Option.isSome_iff_exists.2 ⟨effects, hread⟩)
    exact ⟨p, hp, accepted_path.1 hpath⟩
  · rintro ⟨p, hp, haccepted⟩
    rw [hp, Option.bind_some, isSome_readFile]
    exact accepted_path.2 haccepted

/-- `/%` has a malformed escape, and `/%252F` has an escaped slash once it is decoded. -/
theorem not_survives : ∃ server : Server,
    ¬ server.Survives "/%".toList ∧ ¬ server.Survives "/%252F".toList := by
  let server : Server := {
    root := ⟨[], [], rfl, by simp, by simp, by simp, by simp⟩
    files := fun _ => none
    strict := false }
  have hmalformed : server.handle "/%".toList = none := by decide
  have hslash : server.handle "/%252F".toList = none := by decide
  refine ⟨server, ?_, ?_⟩
  · rw [survives_iff_isSome, hmalformed]
    decide
  · rw [survives_iff_isSome, hslash]
    decide

end IrohWebrtc

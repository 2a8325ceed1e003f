import TemplateFormat.Editor.Session
import TemplateFormat.Proofs.Disks

/-!
# The documents of a session

A session is told about documents by the requests that open, change and close them, and
by nothing else.  What it knows of a document is the last word about it that could be
read before the session was shut down or left.

* `Method.ofName?_eq_some_iff` — the names of the methods;
* `handle_session` — everything that one request can do to a session;
* `after_of_stopped` — a run of requests changes nothing any more behind the request that
  ends the service;
* `lookup_after` — the document that a session holds is the last word about it;
* `after_history` — the law of all histories: which documents are held, that refused
  requests change nothing, how requests are answered after a shutdown, and that requests
  about one document never touch another.

The workspace in which a request is handled may be another one each time: what becomes of
a session does not depend on it.
-/

namespace TemplateFormat.Editor

open Storage

/-! ## The names of the methods -/

/-- The names that a method has. -/
def Method.names : Method → List String
  | .start => ["initialize"]
  | .shutdown => ["shutdown"]
  | .exit => ["exit"]
  | .didOpen => ["textDocument/didOpen"]
  | .didChange => ["textDocument/didChange"]
  | .didClose => ["textDocument/didClose"]
  | .formatting => ["textDocument/formatting"]
  | .rangeFormatting => ["textDocument/rangeFormatting"]
  | .acknowledged => ["initialized", "textDocument/didSave", "workspace/didChangeWatchedFiles",
      "workspace/didChangeConfiguration", "$/cancelRequest"]

/-- Texts of two strings are the same only if the strings are. -/
theorem text_inj {s t : String} : text s = text t ↔ s = t := by
  rw [text, text, List.map_inj_right fun _ _ => Glyph.char.inj, String.toList_inj]

/-- A method is looked up by its name. -/
theorem Method.ofName?_text (known : String) :
    ofName? (text known) = (table.find? (·.1 = known)).map (·.2) := by
  simp only [ofName?, text_inj]

/-- **The methods that are known** are those that have a name, each under its names only. -/
theorem Method.ofName?_eq_some_iff {name : Text} {method : Method} :
    ofName? name = some method ↔ ∃ known ∈ method.names, text known = name := by
  constructor
  · intro h
    obtain ⟨⟨known, found⟩, hfind, rfl⟩ := Option.map_eq_some_iff.mp h
    have hnamed : ∀ entry ∈ table, entry.1 ∈ entry.2.names := by decide
    exact ⟨known, hnamed _ (List.mem_of_find?_eq_some hfind), by simpa using List.find?_some hfind⟩
  · rintro ⟨known, hknown, rfl⟩
    have hfound : ∀ known ∈ method.names, ofName? (text known) = some method := by
      simp only [ofName?_text]
      cases method <;> decide
    exact hfound known hknown

/-! ## What requests say -/

/-- What is said about a document: the text that it has from now on, or that it is
closed. -/
structure Word where
  uri : Text
  content : Option Text
deriving DecidableEq, Repr

/-- What a request says about a document.  One that cannot be read says nothing, and
neither does a change without texts. -/
def Request.word? (r : Request) : Option Word :=
  match Method.ofName? r.method with
  | some .didOpen => do
      let document ← r.params.bind (Document.openReader {})
      return { uri := document.uri, content := some document.content }
  | some .didChange => do
      let changes ← r.params.bind (Changes.reader {})
      let last ← changes.texts.getLast?
      return { uri := changes.uri, content := some last }
  | some .didClose => do
      let uri ← r.params.bind (closeReader [])
      return { uri, content := none }
  | _ => none

/-- Whether a request asks for the given method. -/
def Request.calls (r : Request) (method : Method) : Bool := Method.ofName? r.method == some method

/-- Whether a request ends the service: it shuts the session down or leaves it. -/
def Request.endsService (r : Request) : Bool := r.calls .shutdown || r.calls .exit

/-- The last word about a document among requests. -/
def lastWord (uri : Text) (rs : List Request) : Option Word :=
  ((rs.filterMap Request.word?).filter (·.uri = uri)).getLast?

namespace Session

/-! ## One request -/

/-- The session that was told a word. -/
def told (s : Session) (w : Word) : Session :=
  match w.content with
  | some content => s.openDocument w.uri content
  | none => s.closeDocument w.uri

/-- The session after a request that it serves. -/
def served (s : Session) (r : Request) : Session where
  documents := (r.word?.map fun w => (s.told w).documents).getD s.documents
  isShutDown := s.isShutDown || r.calls .shutdown
  isClosed := s.isClosed || r.calls .exit

/-- A word sets the document that it is about and no other. -/
theorem lookup_told (s : Session) (w : Word) (uri : Text) :
    (s.told w).documents.lookup uri =
      if uri = w.uri then w.content else s.documents.lookup uri := by
  obtain ⟨about, content⟩ := w
  cases content with
  | some content => exact lookup_set s.documents about content uri
  | none => exact lookup_without s.documents about uri

/-- **Everything a request can do to a session.**  A closed session stays as it is, and
one that is shut down can only be left. -/
theorem handle_session (s : Session) (ws : Workspace) (r : Request) :
    (s.handle ws r).2.1 =
      if s.isClosed then s
      else if s.isShutDown then { s with isClosed := r.calls .exit }
      else s.served r := by
  obtain ⟨documents, isShutDown, isClosed⟩ := s
  cases isClosed with
  | true => rfl
  | false =>
      simp only [handle, reply, Bool.false_eq_true, if_false]
      cases hmethod : Method.ofName? r.method with
      | none => cases isShutDown <;> simp [served, Request.word?, Request.calls, hmethod]
      | some method =>
          cases isShutDown with
          | true =>
              cases method <;> simp [call, Request.calls, hmethod]
          | false =>
              simp only [Bool.false_and, Bool.false_eq_true, if_false, call]
              cases method with
              | start | acknowledged | shutdown | exit =>
                  simp [served, Request.word?, Request.calls, hmethod]
              | didOpen =>
                  cases hread : r.params.bind (Document.openReader {}) <;>
                    simp [served, told, Request.word?, Request.calls, hmethod, hread, openDocument]
              | didChange =>
                  cases hread : r.params.bind (Changes.reader {}) with
                  | none => simp [served, Request.word?, Request.calls, hmethod, hread]
                  | some changes =>
                      cases hlast : changes.texts.getLast? <;>
                        simp [served, told, Request.word?, Request.calls, hmethod, hread, hlast,
                          openDocument]
              | didClose =>
                  cases hread : r.params.bind (closeReader []) <;>
                    simp [served, told, Request.word?, Request.calls, hmethod, hread, closeDocument]
              | formatting =>
                  cases r.params.bind (Formatting.reader {}) <;>
                    simp [served, Request.word?, Request.calls, hmethod]
              | rangeFormatting =>
                  cases r.params.bind (Formatting.spanReader {}) <;>
                    simp [served, Request.word?, Request.calls, hmethod]

/-- A call that is refused leaves the session as it was. -/
theorem call_session_of_error {s : Session} {ws : Workspace} {method : Method}
    {params : Option Json} {refusal : Refusal} (h : (s.call ws method params).1 = .error refusal) :
    (s.call ws method params).2.1 = s := by
  unfold call at h ⊢
  cases method with
  | start | shutdown | exit | acknowledged => cases h
  | didOpen => cases hread : params.bind (Document.openReader {}) <;> simp_all
  | didChange =>
      cases hread : params.bind (Changes.reader {}) with
      | none => rfl
      | some changes => cases hlast : changes.texts.getLast? <;> simp_all
  | didClose => cases hread : params.bind (closeReader []) <;> simp_all
  | formatting => cases hread : params.bind (Formatting.reader {}) <;> simp_all
  | rangeFormatting => cases hread : params.bind (Formatting.spanReader {}) <;> simp_all

/-- A request that is refused leaves the session as it was. -/
theorem handle_session_of_error {s : Session} {ws : Workspace} {r : Request} {refusal : Refusal}
    (h : (s.handle ws r).1 = some (.error refusal)) : (s.handle ws r).2.1 = s := by
  unfold handle at h ⊢
  cases hclosed : s.isClosed with
  | true => rfl
  | false =>
      simp only [hclosed, Bool.false_eq_true, if_false] at h ⊢
      have hreply : (s.reply ws r).1 = .error refusal := by
        split at h
        · cases h
        · exact Option.some.inj h
      unfold reply at hreply ⊢
      cases hmethod : Method.ofName? r.method with
      | none => rfl
      | some method =>
          simp only [hmethod] at hreply ⊢
          split at hreply
          · next hrefused => rw [if_pos hrefused]
          · next hserved =>
              rw [if_neg hserved]
              exact call_session_of_error hreply

/-- A session that is shut down and not left refuses every request but the one to leave. -/
theorem handle_of_isShutDown {s : Session} (ws : Workspace) {r : Request}
    (hshut : s.isShutDown = true) (hopen : s.isClosed = false) (hexit : r.calls .exit = false) :
    (s.handle ws r).1 =
      some (.error (if (Method.ofName? r.method).isSome then .shutDown else .methodNotFound)) := by
  unfold handle reply
  cases hmethod : Method.ofName? r.method with
  | none => simp [hopen]
  | some method =>
      have hne : method ≠ .exit := by
        rintro rfl
        simp [Request.calls, hmethod] at hexit
      simp [hopen, hshut, hne]

/-! ## A run of requests -/

/-- The session after requests, each handled in the workspace it comes with. -/
def after (s : Session) (steps : List (Workspace × Request)) : Session :=
  steps.foldl (fun s step => (s.handle step.1 step.2).2.1) s

@[simp] theorem after_nil (s : Session) : s.after [] = s := rfl

@[simp] theorem after_cons (s : Session) (step : Workspace × Request)
    (steps : List (Workspace × Request)) :
    s.after (step :: steps) = ((s.handle step.1 step.2).2.1).after steps := rfl

theorem after_append (s : Session) (steps later : List (Workspace × Request)) :
    s.after (steps ++ later) = (s.after steps).after later := List.foldl_append

/-- The session stays closed, and is closed by a request to leave only. -/
theorem isClosed_after (s : Session) (steps : List (Workspace × Request)) :
    (s.after steps).isClosed = (s.isClosed || (steps.map (·.2)).any (·.calls .exit)) := by
  induction steps generalizing s with
  | nil => simp
  | cons step steps ih =>
      rw [after_cons, ih, handle_session, List.map_cons, List.any_cons]
      cases hclosed : s.isClosed <;> cases hshut : s.isShutDown <;> simp [served, hclosed]

/-- A session that is closed or shut down stays so, with its documents. -/
theorem after_of_stopped {s : Session} (h : (s.isClosed || s.isShutDown) = true)
    (steps : List (Workspace × Request)) :
    (s.after steps).documents = s.documents ∧ (s.after steps).isShutDown = s.isShutDown := by
  induction steps generalizing s with
  | nil => exact ⟨rfl, rfl⟩
  | cons step steps ih =>
      rw [after_cons, handle_session]
      cases hclosed : s.isClosed with
      | true => exact ih h
      | false =>
          have hshut : s.isShutDown = true := by simpa [hclosed] using h
          rw [if_neg (by decide), if_pos hshut]
          exact ih (by simp [hshut])

/-- A request to leave shuts nothing down. -/
theorem calls_shutdown_of_exit {r : Request} (h : r.calls .exit = true) :
    r.calls .shutdown = false := by
  simp only [Request.calls, beq_iff_eq] at h ⊢
  rw [h]
  rfl

/-- The session is shut down by a request to shut down that comes before any to leave. -/
theorem isShutDown_after {s : Session} (hopen : s.isClosed = false)
    (steps : List (Workspace × Request)) :
    (s.after steps).isShutDown = (s.isShutDown ||
      ((steps.map (·.2)).takeWhile (!·.calls .exit)).any (·.calls .shutdown)) := by
  induction steps generalizing s with
  | nil => simp
  | cons step steps ih =>
      rw [after_cons, handle_session, hopen, if_neg (by decide), List.map_cons]
      cases hexit : step.2.calls .exit with
      | true =>
          have hnot := calls_shutdown_of_exit hexit
          have hstops : ((if s.isShutDown then { s with isClosed := true }
              else s.served step.2).isClosed) = true := by
            split <;> simp [served, hexit]
          rw [(after_of_stopped (by simp [hstops]) steps).2,
            List.takeWhile_cons_of_neg (by simp [hexit])]
          split <;> simp [served, hnot]
      | false =>
          have hopen' : ((if s.isShutDown then { s with isClosed := false }
              else s.served step.2).isClosed) = false := by
            split <;> simp [served, hexit, hopen]
          rw [ih hopen', List.takeWhile_cons_of_pos (by simp [hexit]), List.any_cons]
          cases hshut : s.isShutDown <;> simp [served, hshut]

/-! ## The last word about a document -/

/-- A request that ends the service says nothing about documents. -/
theorem word?_of_endsService {r : Request} (h : r.endsService = true) : r.word? = none := by
  simp only [Request.endsService, Request.calls, Bool.or_eq_true, beq_iff_eq] at h
  rcases h with h | h <;> simp [Request.word?, h]

/-- What the first of several requests says counts if no later one speaks. -/
theorem lastWord_cons (uri : Text) (r : Request) (rs : List Request) :
    lastWord uri (r :: rs) = (lastWord uri rs).or (r.word?.filter (·.uri = uri)) := by
  unfold lastWord
  rw [List.filterMap_cons]
  cases hword : r.word? with
  | none => simp
  | some w =>
      by_cases huri : w.uri = uri
      · simp [huri, List.getLast?_cons, Option.filter]
      · simp [huri, Option.filter]

/-- **The document that a session holds is the last word about it** among the requests
before the end of the service; if there is none it is the one that the session held at
first. -/
theorem lookup_after {s : Session} (hopen : s.isClosed = false) (hserves : s.isShutDown = false)
    (steps : List (Workspace × Request)) (uri : Text) :
    (s.after steps).documents.lookup uri =
      match lastWord uri ((steps.map (·.2)).takeWhile (!·.endsService)) with
      | some w => w.content
      | none => s.documents.lookup uri := by
  induction steps generalizing s with
  | nil => rfl
  | cons step steps ih =>
      rw [after_cons, handle_session, hopen, hserves, if_neg (by decide), if_neg (by decide),
        List.map_cons]
      cases hends : step.2.endsService with
      | true =>
          have hstops : ((s.served step.2).isClosed || (s.served step.2).isShutDown) = true := by
            simpa [served, hopen, hserves, Request.endsService, or_comm] using hends
          rw [(after_of_stopped hstops steps).1, List.takeWhile_cons_of_neg (by simp [hends])]
          simp [served, word?_of_endsService hends, lastWord]
      | false =>
          have hruns : (s.served step.2).isClosed = false ∧
              (s.served step.2).isShutDown = false := by
            simpa [served, hopen, hserves, Request.endsService, and_comm] using hends
          rw [ih hruns.1 hruns.2, List.takeWhile_cons_of_pos (by simp [hends]), lastWord_cons]
          cases lastWord uri ((steps.map (·.2)).takeWhile (!·.endsService)) with
          | some w => rfl
          | none =>
              cases hword : step.2.word? with
              | none => simp [served, hword]
              | some w =>
                  by_cases huri : w.uri = uri
                  · simp [served, hword, lookup_told, huri, Option.filter]
                  · simp [served, hword, lookup_told, huri, Ne.symm huri, Option.filter]

/-- Requests about other documents do not change the last word about one. -/
theorem lastWord_about (uri : Text) (rs : List Request) :
    lastWord uri ((rs.filter fun r => r.word?.all (·.uri = uri)).takeWhile (!·.endsService)) =
      lastWord uri (rs.takeWhile (!·.endsService)) := by
  induction rs with
  | nil => rfl
  | cons r rs ih =>
      cases hends : r.endsService with
      | true => simp [hends, word?_of_endsService hends]
      | false =>
          rw [List.takeWhile_cons_of_pos (by simp [hends]), lastWord_cons, ← ih]
          by_cases habout : (r.word?.all (·.uri = uri)) = true
          · rw [List.filter_cons_of_pos (by exact habout),
              List.takeWhile_cons_of_pos (by simp [hends]), lastWord_cons]
          · obtain ⟨w, hword, huri⟩ : ∃ w, r.word? = some w ∧ w.uri ≠ uri := by
              cases hword : r.word? with
              | none => simp [hword] at habout
              | some w => exact ⟨w, rfl, by simpa [hword] using habout⟩
            rw [List.filter_cons_of_neg (by exact habout)]
            simp [hword, huri, Option.filter]

/-- **The law of all histories.**  After any requests, in whatever workspaces they are
handled:

* a document is held with a text exactly if the last word about it, among the requests
  that come before any request to shut down or to leave, gives it that text;
* a request that is refused changes nothing;
* once the session was shut down nothing changes a document, and until it is left every
  known method but `exit` is answered as an invalid request and every other method as not
  found;
* the requests about other documents have no effect on one. -/
theorem after_history (steps : List (Workspace × Request)) :
    let s : Session := after {} steps
    let rs := steps.map (·.2)
    (∀ uri content, s.documents.lookup uri = some content ↔
      ∃ w, lastWord uri (rs.takeWhile (!·.endsService)) = some w ∧ w.content = some content) ∧
    (∀ ws r refusal, (s.handle ws r).1 = some (.error refusal) → (s.handle ws r).2.1 = s) ∧
    ((rs.takeWhile (!·.calls .exit)).any (·.calls .shutdown) = true →
      (∀ later, (after {} (steps ++ later)).documents = s.documents) ∧
      (rs.any (·.calls .exit) = false → ∀ ws r, r.calls .exit = false →
        ∃ refusal, (s.handle ws r).1 = some (.error refusal) ∧
          refusal.code = if (Method.ofName? r.method).isSome then -32600 else -32601)) ∧
    (∀ uri, s.documents.lookup uri = (after {} (steps.filter fun step =>
      step.2.word?.all (·.uri = uri))).documents.lookup uri) := by
  intro s rs
  have hheld : ∀ steps uri, (after {} steps).documents.lookup uri =
      (lastWord uri ((steps.map (·.2)).takeWhile (!·.endsService))).bind Word.content := by
    intro steps uri
    rw [lookup_after rfl rfl]
    cases lastWord uri ((steps.map (·.2)).takeWhile (!·.endsService)) <;> rfl
  have hdown : (rs.takeWhile (!·.calls .exit)).any (·.calls .shutdown) = true →
      s.isShutDown = true := by
    intro hshut
    rw [isShutDown_after rfl]
    exact hshut
  refine ⟨fun uri content => ?_, fun ws r refusal => handle_session_of_error,
    fun hshut => ⟨fun later => ?_, fun hopen ws r hexit => ?_⟩, fun uri => ?_⟩
  · rw [hheld, Option.bind_eq_some_iff]
  · rw [after_append]
    exact (after_of_stopped (Bool.or_eq_true_iff.mpr (.inr (hdown hshut))) later).1
  · have hleft : s.isClosed = false := by
      rw [isClosed_after]
      exact hopen
    refine ⟨_, handle_of_isShutDown ws (hdown hshut) hleft hexit, ?_⟩
    split <;> rfl
  · have hmap : (steps.filter fun step => step.2.word?.all (·.uri = uri)).map (·.2) =
        (steps.map (·.2)).filter fun r => r.word?.all (·.uri = uri) := by
      rw [List.filter_map]
      rfl
    rw [hheld, hheld, hmap, lastWord_about]

/-- A document that is opened, changed, and opened once more behind a shutdown, which is
refused. -/
theorem after_history_reopened :
    let uri := text "file:///a.html"
    let opening (content : String) : Request := {
      method := text "textDocument/didOpen"
      params := some <| .object [(text "textDocument",
        .object [(text "uri", .string uri), (text "text", .string (text content))])] }
    let change : Json := .object [
      (text "textDocument", .object [(text "uri", .string uri)]),
      (text "contentChanges", .array [.object [(text "text", .string (text "b"))]])]
    let steps : List (Workspace × Request) := [
      ({}, opening "a"),
      ({}, { method := text "textDocument/didChange", params := change }),
      ({}, { method := text "shutdown" }),
      ({}, opening "c")]
    (after {} steps).documents.lookup uri = some (text "b") ∧
      ∃ refusal, ((after {} steps).handle {} (opening "d")).1 = some (.error refusal) ∧
        refusal.code = -32600 := by
  intro uri opening change steps
  obtain ⟨hheld, -, hdown, -⟩ := after_history steps
  obtain ⟨-, hrefused⟩ := hdown (by decide +kernel)
  obtain ⟨refusal, hanswer, hcode⟩ :=
    hrefused (by decide +kernel) {} (opening "d") (by decide +kernel)
  have hknown : (Method.ofName? (opening "d").method).isSome = true :=
    Option.isSome_iff_exists.mpr
      ⟨.didOpen, Method.ofName?_eq_some_iff.mpr ⟨_, List.mem_singleton_self _, rfl⟩⟩
  rw [if_pos hknown] at hcode
  exact ⟨(hheld uri (text "b")).mpr ⟨⟨uri, some (text "b")⟩, by decide +kernel, rfl⟩,
    refusal, hanswer, hcode⟩

end Session

end TemplateFormat.Editor

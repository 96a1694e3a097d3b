import FinSight.Guarantees.Lifecycle

/-!
# Uploads of one file and deletions

* `afterInsert` : what is left of an upload after its insert, `Awaits` : its insert has met a document and it has yet to
  read the row;
* `Unraced` : the steps that delete no document an upload has met and has yet to read;
* `Stage` : where a call of `createDocument` stands in such a run, `Stage.step` : how it goes on;
* `Deduplicated` : one document for each content, and an answer to every valid upload; `deduplicated_of_unraced`,
  `not_deduplicated`.
-/

namespace FinSight.Documents

open ReadCommitted Documents.Sql

section
variable (digest : List UInt8 → Text)

/-- What is left of an upload after its insert. -/
def afterInsert (r : UploadRequest) (file : File) : Option Document → Tx Response
  | none => .call (selectDocumentByKey r.tenantId (digest file.buffer)) fun existing => .ret (.created ⟨existing, false⟩)
  | some d => .call (insertFile ⟨d.id, r.tenantId, text "application/pdf", file.size, file.buffer⟩)
      fun _ => .ret (.created ⟨some d, true⟩)

/-- Where its insert has met a document, and the row is still to be read. -/
structure Awaits (s : Sys) (t : Nat) (r : UploadRequest) (file : File) : Prop where
  running : ∃ call tx, s.Running t call tx ∧ call.request = .createDocument r ∧ tx.program = afterInsert digest r file none
  file : assertPdf r.file = .ok file

/-- The document that an upload of these bytes meets. -/
def Document.Holds (d : Document) (r : UploadRequest) (file : File) : Prop :=
  d.tenantId = r.tenantId ∧ d.contentSha256 = digest file.buffer

/-- A generated document id is not in use. -/
def FreshIds (s : Sys) (l : Event) : Prop := ∀ t c, l = .exec t c → ∀ d ∈ s.db.documents, d.id ≠ c.fresh 0

/-- The step commits no deletion of a document that an upload has met and has yet to read; the title of an upload has no
NUL. -/
structure Unraced (s : Sys) (l : Event) : Prop where
  keeps : ∀ u call tx req, l = .commit u → s.Running u call tx → call.request = .deleteDocument req →
    ∀ t r file, Awaits digest s t r file → ∀ d ∈ s.db.documents, d.id = req.documentId.uuid → ¬ d.Holds digest r file
  titles : ∀ r file, l = .begin (.createDocument r) → assertPdf r.file = .ok file →
    nulFree (r.title.getD file.originalname) = true
  fresh : FreshIds s l

end

variable {digest : List UInt8 → Text} {s s' : Sys} {l : Event} {r : UploadRequest} {file : File}

theorem program_create (hfile : assertPdf r.file = .ok file) : program digest (.createDocument r) =
    .call (insertDocument ⟨r.tenantId, r.title.getD file.originalname, digest file.buffer⟩) (afterInsert digest r file) := by
  show (createDocument digest r >>= fun result => (Program.ret (.created result) : Tx Response)) = _
  rw [createDocument, hfile]
  show Program.call _ _ = _
  congr 1
  funext created
  cases created <;> rfl

/-- The row that the read of an upload finds. -/
theorem Document.Holds.find {db : Db} (hconsistent : Consistent digest db) {d : Document} (hd : d ∈ db.documents)
    (h : d.Holds digest r file) :
    (db.documents.find? fun d => d.tenantId = r.tenantId && d.contentSha256 = digest file.buffer) = some d := by
  cases hf : db.documents.find? fun d => d.tenantId = r.tenantId && d.contentSha256 = digest file.buffer with
  | none =>
      have hno := List.find?_eq_none.mp hf d hd
      simp [h.1, h.2] at hno
  | some e =>
      have he := List.find?_some hf
      rw [Bool.and_eq_true, decide_eq_true_iff, decide_eq_true_iff] at he
      rw [hconsistent.eq_of_key (List.mem_of_find?_eq_some hf) hd (he.1.trans h.1.symm) (he.2.trans h.2.symm)]

/-- Where an upload stands: before its insert or with a row of its own, or with the id of the document it has met. -/
inductive Stage (digest : List UInt8 → Text) (db : Db) (r : UploadRequest) (file : File)
    (tx : Txn Db Write Lock Failure Choice Response) : Option Uuid → Prop
  | start : tx.program = program digest (.createDocument r) → tx.log = [] → Stage digest db r file tx none
  | inserted {d : Document} : tx.program = afterInsert digest r file (some d) → tx.log = [.document d] →
      Lock.document d.id ∈ tx.locks → (∀ x ∈ db.documents, x.id ≠ d.id) → Stage digest db r file tx none
  | made {d : Document} : tx.program = .ret (.created ⟨some d, true⟩) → Stage digest db r file tx none
  | met {id : Uuid} : tx.program = afterInsert digest r file none → tx.log = [] →
      (∃ d ∈ db.documents, d.id = id ∧ d.Holds digest r file) → Stage digest db r file tx (some id)
  | found {d : Document} : tx.program = .ret (.created ⟨some d, false⟩) → Stage digest db r file tx (some d.id)

/-- The document that an upload has met stays. -/
theorem present_of_commit {db : Db} {grow : Db → Db → Prop} {now : Timestamp}
    {q : Request} {res : Response} {log : List Write} (hc : Commit digest grow db now q res log) {id : Uuid}
    (hpresent : ∃ d ∈ db.documents, d.id = id ∧ d.Holds digest r file)
    (hkeep : ∀ req, q = .deleteDocument req → req.documentId.uuid ≠ id) :
    ∃ d ∈ (engine.view log db).documents, d.id = id ∧ d.Holds digest r file := by
  obtain ⟨d, hd, hid, hholds⟩ := hpresent
  have hupdate : ∀ {u : Uuid} {state : DocumentState}, ∃ e ∈ setDocument u state db.documents,
      e.id = id ∧ e.Holds digest r file := by
    intro u state
    by_cases hu : d.id = u
    · exact ⟨d.set state, mem_setDocument.mpr (Or.inl ⟨d, hd, hu, rfl⟩), hid, hholds⟩
    · exact ⟨d, mem_setDocument.mpr (Or.inr ⟨hd, hu⟩), hid, hholds⟩
  cases hc with
  | created _ _ => exact ⟨d, List.mem_append_left _ hd, hid, hholds⟩
  | deleted hm =>
      refine ⟨d, List.mem_filter.mpr ⟨hd, ?_⟩, hid, hholds⟩
      rw [Bool.not_eq_true', Bool.eq_false_iff]
      intro his
      exact hkeep _ rfl ((Document.is_iff.mp hm.is).1.symm.trans ((Document.is_iff.mp his).1.symm.trans hid))
  | written _ _ =>
      rw [Engine.view_cons, Engine.view_cons, view_chunks]
      exact hupdate
  | retried _ => exact hupdate
  | claimed _ => exact hupdate
  | marked _ => exact hupdate
  | existing _ _ => exact ⟨d, hd, hid, hholds⟩
  | document _ => exact ⟨d, hd, hid, hholds⟩
  | unclaimed _ => exact ⟨d, hd, hid, hholds⟩
  | file _ => exact ⟨d, hd, hid, hholds⟩
  | lost _ => exact ⟨d, hd, hid, hholds⟩
  | unmarked _ => exact ⟨d, hd, hid, hholds⟩

variable {ok : Sys → Event → Prop}

/-- A step of another call leaves an upload at its stage. -/
theorem Stage.others (h : Reaches digest ok s) (hok : Unraced digest s l)
    (hstep : s.step engine (program digest) l = some s') (hfile : assertPdf r.file = .ok file) {t : Nat} {call tx}
    (hrun : s.Running t call tx) (hrun' : s'.Running t call tx) (hq : call.request = .createDocument r) {met : Option Uuid}
    (hstage : Stage digest s.db r file tx met) : Stage digest s'.db r file tx met := by
  cases Discipline.event (sound_of_reaches h) hstep with
  | tick _ => exact hstage
  | begin _ => exact hstage
  | work _ => exact hstage
  | failed _ _ _ => exact hstage
  | aborted _ => exact hstage
  | @returned u callU txU res hrunU hret hpost _ hguarantee =>
      have hne : t ≠ u := by
        rintro rfl
        rcases Discipline.running_setStatus (s := s) ⟨hrun'.get, hrun'.status⟩ with ⟨hne, _⟩ | ⟨_, hst, _⟩
        · exact hne rfl
        · cases hst
      cases hstage with
      | start hp hlog => exact .start hp hlog
      | inserted hp hlog hlock hfresh =>
          refine .inserted hp hlog hlock ?_
          have hagree := hguarantee.agree _ ((sound_of_reaches h).disjoint hrun hrunU hne _ hlock)
          have hrows := congrArg Observation.documents hagree
          intro x hx hid
          have hmem : x ∈ (observe (engine.view txU.log s.db) (.document x.id)).documents :=
            List.mem_filter.mpr ⟨hx, by simp⟩
          rw [hid, hrows] at hmem
          exact hfresh x (List.mem_filter.mp hmem).1 hid
      | made hp => exact .made hp
      | found hp => exact .found hp
      | met hp hlog hpresent =>
          refine .met hp hlog (present_of_commit hpost.1 hpresent fun req hreq hid => ?_)
          obtain ⟨d, hd, hdid, hholds⟩ := hpresent
          exact hok.keeps u callU txU req rfl hrunU hreq t r file ⟨⟨call, tx, hrun, hq, hp⟩, hfile⟩ d hd
            (hdid.trans hid.symm) hholds

/-! ## The statements of an upload -/

theorem exec_db {t : Nat} {c : Choice} (hstep : s.step engine (program digest) (.exec t c) = some s') : s'.db = s.db := by
  obtain ⟨_, _, _, _, _, _, _, ⟨_, _, rfl⟩ | ⟨_, _, _, _, _, _, rfl⟩⟩ := System.exec_inv hstep
  · rfl
  · rfl

theorem assertPdf_ok {f : Option File} (h : assertPdf f = .ok file) : 0 < file.size ∧ file.size ≤ 10485760 := by
  unfold assertPdf at h
  split at h
  · cases h
  · next g =>
    split at h
    · cases h
    · next hsize =>
      split at h
      · cases h
      · next hmagic =>
        cases h
        refine ⟨List.length_pos_iff.mpr fun hnil => ?_, Nat.le_of_not_lt hsize⟩
        rw [hnil] at hmagic
        exact hmagic (by decide)

/-- An insert of a title without NUL answers: it has met a document, or has a row of its own. -/
theorem insertDocument_answers (v : DocumentValues) (ctx : Context Choice) (db : Db) (htitle : nulFree v.title = true)
    (hfresh : ∀ d ∈ db.documents, d.id ≠ ctx.choice.fresh 0) :
    (insertDocument v ctx db = .done none [] [] [.documentKey v.tenantId v.contentSha256] ∧
        ∃ d ∈ db.documents, d.tenantId = v.tenantId ∧ d.contentSha256 = v.contentSha256) ∨
      ∃ d, d.id = ctx.choice.fresh 0 ∧
        insertDocument v ctx db =
          .done (some d) [.document d] [.document d.id, .documentKey v.tenantId v.contentSha256] [] := by
  unfold insertDocument
  simp only [FinSight.Sql.checked, FinSight.Sql.checkedBy, FinSight.Sql.firstFailure, htitle, if_true]
  by_cases hany : (db.documents.any fun d => d.tenantId = v.tenantId && d.contentSha256 = v.contentSha256) = true
  · rw [if_pos hany]
    obtain ⟨d, hd, hkey⟩ := List.any_eq_true.mp hany
    rw [Bool.and_eq_true, decide_eq_true_iff, decide_eq_true_iff] at hkey
    exact Or.inl ⟨rfl, d, hd, hkey⟩
  · rw [if_neg hany]
    have hall : (db.documents.all fun d => d.id ≠ ctx.choice.fresh 0) = true :=
      List.all_eq_true.mpr fun d hd => by simpa using hfresh d hd
    refine Or.inr ⟨⟨ctx.choice.fresh 0, v.tenantId, some (toWellFormed v.title), v.contentSha256, .pending, none, none,
      ctx.now, ctx.now⟩, rfl, ?_⟩
    rw [if_pos hall]

/-- The file of a new document can be stored. -/
theorem insertFile_answers (v : FileValues) (ctx : Context Choice) (db : Db)
    (hsize : 0 < v.sizeBytes ∧ v.sizeBytes ≤ 10485760) (hfresh : ∀ f ∈ db.files, f.documentId ≠ v.documentId) :
    ∃ f ls, insertFile v ctx db = .done () [.file f] ls [] := by
  have hrange : inInt4 v.sizeBytes = true := by
    simp only [inInt4, Bool.and_eq_true, decide_eq_true_iff]
    omega
  have hcheck : (decide (0 < v.sizeBytes) && decide (v.sizeBytes ≤ 10485760)) = true := by
    rw [Bool.and_eq_true, decide_eq_true_iff, decide_eq_true_iff]
    exact hsize
  have hall : (db.files.all fun f => f.documentId ≠ v.documentId) = true :=
    List.all_eq_true.mpr fun f hf => by simpa using hfresh f hf
  refine ⟨⟨v.documentId, v.tenantId, v.mimeType, v.sizeBytes, v.bytes, ctx.now⟩, [.file v.documentId], ?_⟩
  unfold insertFile
  simp only [FinSight.Sql.checked, FinSight.Sql.checkedBy, FinSight.Sql.firstFailure, hrange, hcheck, hall, if_true]

/-- **How an upload goes on.** -/
theorem Stage.step (h : Reaches digest ok s) (hok : Unraced digest s l)
    (hstep : s.step engine (program digest) l = some s') (hfile : assertPdf r.file = .ok file)
    (htitle : nulFree (r.title.getD file.originalname) = true) {t : Nat} {call tx call' tx'} (hrun : s.Running t call tx)
    (hrun' : s'.Running t call' tx') (hq : call.request = .createDocument r) {met : Option Uuid}
    (hstage : Stage digest s.db r file tx met) :
    ∃ met', Stage digest s'.db r file tx' met' ∧ ∀ id ∈ met, met' = some id := by
  have hconsistent := consistent_of_reaches h
  cases System.became hstep hrun' with
  | stayed hrun₀ =>
      obtain rfl := hrun.call_eq hrun₀
      obtain rfl := hrun.tx_eq hrun₀
      exact ⟨met, hstage.others h hok hstep hfile hrun hrun' hq, fun _ hid => hid⟩
  | began _ ht _ _ =>
      have hlen := (List.getElem?_eq_some_iff.mp hrun.get).1
      omega
  | @raised call₀ tx₀ c _ stmt next e hl hrun₀ hprog herr _ _ =>
      obtain rfl := hrun.call_eq hrun₀
      obtain rfl := hrun.tx_eq hrun₀
      exfalso
      cases hstage with
      | start hp hlog =>
          rw [hp, program_create hfile] at hprog
          cases hprog
          rw [hlog, Engine.view_nil] at herr
          rcases insertDocument_answers ⟨r.tenantId, r.title.getD file.originalname, digest file.buffer⟩ ⟨call.startedAt, c⟩
            s.db htitle (hok.fresh t c hl) with ⟨hr, _⟩ | ⟨d, _, hr⟩
          · rw [hr] at herr
            cases herr
          · rw [hr] at herr
            cases herr
      | @inserted d hp hlog hlock hfresh =>
          rw [hp] at hprog
          cases hprog
          rw [hlog] at herr
          obtain ⟨ws, ls, hr⟩ := insertFile_answers
            ⟨d.id, r.tenantId, text "application/pdf", file.size, file.buffer⟩ ⟨call.startedAt, c⟩
            (engine.view [.document d] s.db) (assertPdf_ok hfile) fun f hf hid => by
              obtain ⟨e, he, hof⟩ := hconsistent.files f hf
              exact hfresh e he ((DocumentFile.of_iff.mp hof).1.symm.trans hid)
          rw [hr] at herr
          cases herr
      | made hp =>
          rw [hp] at hprog
          cases hprog
      | met hp _ _ =>
          rw [hp] at hprog
          cases hprog
          cases herr
      | found hp =>
          rw [hp] at hprog
          cases hprog
  | @replied call₀ tx₀ c _ stmt next res ws ls waits hl hrun₀ hprog hreply _ _ htx =>
      obtain rfl := hrun.call_eq hrun₀
      obtain rfl := hrun.tx_eq hrun₀
      subst hl
      have hdb := exec_db hstep
      cases hstage with
      | start hp hlog =>
          rw [hp, program_create hfile] at hprog
          cases hprog
          rw [hlog, Engine.view_nil] at hreply
          rcases insertDocument_answers ⟨r.tenantId, r.title.getD file.originalname, digest file.buffer⟩ ⟨call.startedAt, c⟩
            s.db htitle (hok.fresh t c rfl) with
            ⟨hr, d, hd, hholds⟩ | ⟨d, hid, hr⟩
          · rw [hr] at hreply
            cases hreply
            refine ⟨some d.id, ?_, fun _ hnone => by cases hnone⟩
            rw [hdb]
            exact .met (by rw [htx]) (by rw [htx, hlog]; rfl) ⟨d, hd, rfl, hholds⟩
          · rw [hr] at hreply
            cases hreply
            refine ⟨none, ?_, fun _ hnone => by cases hnone⟩
            rw [hdb]
            refine .inserted (d := d) (by rw [htx]) (by rw [htx, hlog]; rfl) (by rw [htx]; simp) ?_
            rw [hid]
            exact hok.fresh t c rfl
      | @inserted d hp hlog _ _ =>
          rw [hp] at hprog
          cases hprog
          refine ⟨none, .made (d := d) (by rw [htx]), fun _ hnone => by cases hnone⟩
      | made hp =>
          rw [hp] at hprog
          cases hprog
      | @met id hp hlog hpresent =>
          rw [hp] at hprog
          cases hprog
          rw [hlog] at hreply
          cases hreply
          obtain ⟨d, hd, rfl, hholds⟩ := hpresent
          have hfind := hholds.find hconsistent hd
          refine ⟨some d.id, .found (d := d) ?_, fun _ hid => hid⟩
          rw [htx, Engine.view_nil, hfind]
      | found hp =>
          rw [hp] at hprog
          cases hprog
  | refused _ _ he _ _ => cases he
  | prepared hl hrun₀ hret _ htx =>
      obtain rfl := hrun.call_eq hrun₀
      obtain rfl := hrun.tx_eq hrun₀
      have hprogram : tx'.program = tx.program := by rw [htx]
      cases hstage with
      | start hp _ =>
          rw [hp, program_create hfile] at hret
          cases hret
      | inserted hp _ _ _ =>
          rw [hp] at hret
          cases hret
      | made hp => exact ⟨none, .made (hprogram.trans hp), fun _ hnone => by cases hnone⟩
      | met hp _ _ =>
          rw [hp] at hret
          cases hret
      | @found d hp => exact ⟨some d.id, .found (hprogram.trans hp), fun _ hid => hid⟩

/-- How an upload at this stage ends: it has a row of its own, or the document that it has met. -/
theorem Stage.ends (hstep : s.step engine (program digest) l = some s') (hfile : assertPdf r.file = .ok file) {t : Nat}
    {call tx o} (hends : s.Ends s' t call tx o) {met : Option Uuid} (hstage : Stage digest s.db r file tx met) :
    o = .aborted ∨ ∃ d created, o = .returned (.created ⟨some d, created⟩) ∧ ∀ id ∈ met, created = false ∧ d.id = id := by
  rcases System.ends_program hstep hends with ⟨res, rfl, hret, _⟩ | ⟨e, _, hthrow, _⟩ | ⟨rfl, _⟩
  · cases hstage with
    | start hp _ =>
        rw [hp, program_create hfile] at hret
        cases hret
    | inserted hp _ _ _ =>
        rw [hp] at hret
        cases hret
    | @made d hp =>
        rw [hp] at hret
        cases hret
        exact Or.inr ⟨d, true, rfl, fun _ hnone => by cases hnone⟩
    | met hp _ _ =>
        rw [hp] at hret
        cases hret
    | @found d hp =>
        rw [hp] at hret
        cases hret
        exact Or.inr ⟨d, false, rfl, fun id hid => ⟨rfl, Option.some.inj hid⟩⟩
  · cases hstage with
    | start hp _ =>
        rw [hp, program_create hfile] at hthrow
        cases hthrow
    | inserted hp _ _ _ | made hp | met hp _ _ | found hp =>
        rw [hp] at hthrow
        cases hthrow
  · exact Or.inl rfl

/-! ## Runs -/

/-- What is asked of the title of a valid upload. -/
def Titled (q : Request) : Prop :=
  ∀ r file, q = .createDocument r → assertPdf r.file = .ok file → nulFree (r.title.getD file.originalname) = true

theorem titled_of_reaches (h : Reaches digest (Unraced digest) s) {t : Nat}
    {call : Call Db Write Lock Failure Choice Request Response}
    (hget : s.calls[t]? = some call) : Titled call.request :=
  System.Reachable.request (P := Titled) (fun _ _ hok r file hq hfile => hok.titles r file (by rw [hq]) hfile) rfl h hget

/-- Every valid upload in flight is at one of the stages. -/
theorem stage_of_reaches (h : Reaches digest (Unraced digest) s) (hfile : assertPdf r.file = .ok file) {t : Nat} {call tx}
    (hrun : s.Running t call tx) (hq : call.request = .createDocument r) : ∃ met, Stage digest s.db r file tx met := by
  induction h generalizing call tx with
  | refl => exact absurd hrun (System.not_running_of_nil rfl)
  | step hrest hok hstep ih =>
      rcases System.running_before hstep hrun with ⟨call₀, tx₀, hrun₀, hsame⟩ | ⟨_, htx⟩
      · rw [hsame] at hq
        obtain ⟨met, hstage⟩ := ih hrun₀ hq
        have htitle := titled_of_reaches hrest hrun₀.get r file hq hfile
        obtain ⟨met', hstage', _⟩ := hstage.step hrest hok hstep hfile htitle hrun₀ hrun hq
        exact ⟨met', hstage'⟩
      · exact ⟨none, .start (by rw [htx, hq]) (by rw [htx])⟩

/-- The answer to an upload that has ended. -/
def Answered (o : Outcome Failure Response) : Prop :=
  o = .aborted ∨ ∃ d created, o = .returned (.created ⟨some d, created⟩)

theorem answered_of_reaches (h : Reaches digest (Unraced digest) s) (hfile : assertPdf r.file = .ok file)
    {call : Call Db Write Lock Failure Choice Request Response} (hcall : call ∈ s.calls)
    (hq : call.request = .createDocument r) {o} (ho : call.status = .finished o) : Answered o := by
  induction h generalizing call with
  | refl => cases hcall
  | step hrest hok hstep ih =>
      obtain ⟨t, hget⟩ := List.mem_iff_getElem?.mp hcall
      rcases System.ends_of_finished hstep hget ho with hold | ⟨call₀, tx, hends, rfl⟩
      · exact ih (List.mem_iff_getElem?.mpr ⟨t, hold⟩) hq ho
      · obtain ⟨met, hstage⟩ := stage_of_reaches hrest hfile hends.running hq
        rcases hstage.ends hstep hfile hends with rfl | ⟨d, created, rfl, _⟩
        · exact Or.inl rfl
        · exact Or.inr ⟨d, created, rfl⟩

/-- An upload that has met the document `id` is in flight, or has answered it. -/
inductive Meeting (digest : List UInt8 → Text) (s : Sys) (t : Nat) (r : UploadRequest) (file : File) (id : Uuid) : Prop
  | running {call tx} : s.Running t call tx → call.request = .createDocument r → Stage digest s.db r file tx (some id) →
      Meeting digest s t r file id
  | ended {call o} : s.calls[t]? = some call → call.status = .finished o →
      (o = .aborted ∨ ∃ d, o = .returned (.created ⟨some d, false⟩) ∧ d.id = id) → Meeting digest s t r file id

theorem Meeting.step (h : Reaches digest (Unraced digest) s) (hok : Unraced digest s l)
    (hstep : s.step engine (program digest) l = some s') (hfile : assertPdf r.file = .ok file) {t : Nat} {id : Uuid}
    (hm : Meeting digest s t r file id) : Meeting digest s' t r file id := by
  cases hm with
  | @running call tx hrun hq hstage =>
      obtain ⟨st, hget', _⟩ := System.step_keeps hstep hrun.get
      cases st with
      | running tx' =>
          have hrun' : s'.Running t { call with status := .running tx' } tx' := ⟨hget', rfl⟩
          have htitle := titled_of_reaches h hrun.get r file hq hfile
          obtain ⟨met', hstage', hmet⟩ := hstage.step h hok hstep hfile htitle hrun hrun' hq
          rw [hmet id rfl] at hstage'
          exact .running hrun' hq hstage'
      | finished o =>
          refine .ended hget' rfl ?_
          rcases hstage.ends hstep hfile ⟨hrun, hget'⟩ with rfl | ⟨d, created, rfl, hmet⟩
          · exact Or.inl rfl
          · obtain ⟨rfl, hid⟩ := hmet id rfl
            exact Or.inr ⟨d, rfl, hid⟩
  | @ended call o hget ho hout =>
      obtain ⟨st, hget', hst⟩ := System.step_keeps hstep hget
      rw [hst o ho] at hget'
      exact .ended hget' ho hout

theorem Meeting.run (h : Reaches digest (Unraced digest) s) (hfile : assertPdf r.file = .ok file) {t : Nat} {id : Uuid}
    (hm : Meeting digest s t r file id)
    (h' : System.Reachable engine (program digest) (Unraced digest) s s') : Meeting digest s' t r file id := by
  induction h' with
  | refl => exact hm
  | step hrest hok hstep ih => exact ih.step (h.trans hrest) hok hstep hfile

/-- What an upload has met is the document with its bytes. -/
theorem Awaits.meeting (h : Reaches digest (Unraced digest) s) {t : Nat} (hw : Awaits digest s t r file) {d : Document}
    (hd : d ∈ s.db.documents) (hholds : d.Holds digest r file) : Meeting digest s t r file d.id := by
  obtain ⟨call, tx, hrun, hq, hp⟩ := hw.running
  obtain ⟨met, hstage⟩ := stage_of_reaches h hw.file hrun hq
  have hmet := hstage
  cases hstage with
  | start hp' _ =>
      rw [hp', program_create hw.file] at hp
      have htitle := titled_of_reaches h hrun.get r file hq hw.file
      have hwrites := Program.call_writes hp ⟨0, ⟨fun _ => d.id, []⟩⟩ Db.empty
      rcases insertDocument_answers ⟨r.tenantId, r.title.getD file.originalname, digest file.buffer⟩
        ⟨0, ⟨fun _ => d.id, []⟩⟩ Db.empty htitle (by simp [Db.empty]) with ⟨_, e, he, _⟩ | ⟨e, _, hr⟩
      · cases he
      · rw [hr] at hwrites
        cases hwrites
  | inserted hp' _ _ _ =>
      rw [hp'] at hp
      have hwrites := Program.call_writes hp ⟨0, ⟨fun _ => d.id, []⟩⟩ Db.empty
      obtain ⟨f, ls, hr⟩ := insertFile_answers ⟨_, r.tenantId, text "application/pdf", file.size, file.buffer⟩
        ⟨0, ⟨fun _ => d.id, []⟩⟩ Db.empty (assertPdf_ok hw.file) (by simp [Db.empty])
      rw [hr] at hwrites
      cases hwrites
  | made hp' =>
      rw [hp'] at hp
      cases hp
  | met _ _ hpresent =>
      obtain ⟨e, he, rfl, heholds⟩ := hpresent
      have hde : e = d := (consistent_of_reaches h).eq_of_key he hd (heholds.1.trans hholds.1.symm)
        (heholds.2.trans hholds.2.symm)
      exact .running hrun hq (hde ▸ hmet)
  | found hp' =>
      rw [hp'] at hp
      cases hp

/-! ## What uploads insert -/

/-- An upload that answers `created` has inserted the document with its file, any other one nothing. -/
def InsertedExactly (digest : List UInt8 → Text) (db db' : Db) (r : UploadRequest) (now : Timestamp) (res : CreateResult) :
    Prop :=
  (res.created = true ∧ ∃ file d f, assertPdf r.file = .ok file ∧ res.document = some d ∧
      Uploaded digest db now r.tenantId (r.title.getD file.originalname) file d f ∧
      db' = { db with documents := db.documents ++ [d], files := db.files ++ [f] }) ∨
    (res.created = false ∧ db' = db)

theorem inserted_of_ends (h : Reaches digest ok s) (hstep : s.step engine (program digest) l = some s') {t : Nat}
    {call tx res} (hends : s.Ends s' t call tx (.returned (.created res))) (hq : call.request = .createDocument r) :
    InsertedExactly digest s.db s'.db r call.startedAt res := by
  cases Discipline.finish (sound_of_reaches h) hstep hends with
  | returned hpost =>
      have hcommit := hpost.1
      rw [hq] at hcommit
      generalize tx.log = log at hcommit ⊢
      cases hcommit with
      | @created _ file d f hfile hnew => exact Or.inl ⟨rfl, file, d, f, hfile, rfl, hnew, rfl⟩
      | existing _ _ => exact Or.inr ⟨rfl, rfl⟩

/-- A new document is that of an upload which answers `created`. -/
theorem created_of_new (h : Reaches digest ok s) (hstep : s.step engine (program digest) l = some s') {d : Document}
    (hd : d ∈ s'.db.documents) (hnew : ∀ e ∈ s.db.documents, e.id ≠ d.id) :
    ∃ t call tx r, s.Ends s' t call tx (.returned (.created ⟨some d, true⟩)) ∧ call.request = .createDocument r := by
  cases commit_of_step h hstep with
  | quiet hdb =>
      rw [hdb] at hd
      exact absurd rfl (hnew d hd)
  | @commit t call tx res hl hrun _ hcommit hs' =>
      have hold : ∀ {u : Uuid} {state : DocumentState}, d ∉ setDocument u state s.db.documents := by
        intro u state hmem
        rcases mem_setDocument.mp hmem with ⟨e, he, _, rfl⟩ | ⟨he, _⟩
        · exact hnew e he rfl
        · exact hnew d he rfl
      have hends : s.Ends s' t call tx (.returned res) := by
        refine ⟨hrun, ?_⟩
        rw [hs']
        show (s.setStatus t _).calls[t]? = _
        rw [System.setStatus_get, if_pos rfl, hrun.get]
        rfl
      rw [hs'] at hd
      change d ∈ (engine.view tx.log s.db).documents at hd
      generalize hq : call.request = q at hcommit
      generalize tx.log = log at hcommit hd
      cases hcommit with
      | @created r file e f _ _ =>
          rcases List.mem_append.mp hd with hd | hd
          · exact absurd rfl (hnew d hd)
          · rw [List.mem_singleton.mp hd]
            exact ⟨t, call, tx, r, hends, hq⟩
      | existing _ _ | document _ | unclaimed _ | file _ | lost _ | unmarked _ => exact absurd rfl (hnew d hd)
      | retried _ | claimed _ | marked _ => exact absurd hd hold
      | deleted _ => exact absurd rfl (hnew d (List.mem_filter.mp hd).1)
      | written _ _ =>
          rw [Engine.view_cons, Engine.view_cons, view_chunks] at hd
          exact absurd hd hold

/-- No two documents of a tenant have the same content, and exactly the uploads that answer `created` have inserted one, with
its file. -/
structure InsertsOnce (digest : List UInt8 → Text) (s : Sys) : Prop where
  unique : (s.db.documents.map fun d => (d.tenantId, d.contentSha256)).Nodup
  inserts : ∀ l s', s.step engine (program digest) l = some s' → ∀ t call tx r res,
    s.Ends s' t call tx (.returned (.created res)) → call.request = .createDocument r →
    InsertedExactly digest s.db s'.db r call.startedAt res
  created : ∀ l s', s.step engine (program digest) l = some s' → ∀ d ∈ s'.db.documents,
    (∀ e ∈ s.db.documents, e.id ≠ d.id) →
    ∃ t call tx r, s.Ends s' t call tx (.returned (.created ⟨some d, true⟩)) ∧ call.request = .createDocument r

/-- And every valid upload that has ended without a crash has answered a document. -/
structure Deduplicated (digest : List UInt8 → Text) (s : Sys) : Prop extends InsertsOnce digest s where
  answers : ∀ call ∈ s.calls, ∀ r file, call.request = .createDocument r → assertPdf r.file = .ok file →
    ∀ o, call.status = .finished o → Answered o

theorem insertsOnce_of_reaches (h : Reaches digest ok s) : InsertsOnce digest s :=
  ⟨(consistent_of_reaches h).keys, fun _ _ hstep _ _ _ _ _ hends hq => inserted_of_ends h hstep hends hq,
    fun _ _ hstep _ hd hnew => created_of_new h hstep hd hnew⟩

/-- **Uploads deduplicate where no deletion comes between the two statements of an upload**, and then an upload that has
met a document answers that document; a document is inserted once in any run. -/
theorem deduplicated_of_unraced (digest : List UInt8 → Text) (s : Sys) :
    (∀ ok, Reaches digest ok s → InsertsOnce digest s) ∧
    (Reaches digest (Unraced digest) s → Deduplicated digest s ∧
      ∀ t r file, Awaits digest s t r file → ∀ d ∈ s.db.documents, d.Holds digest r file →
        ∀ s', System.Reachable engine (program digest) (Unraced digest) s s' →
          ∀ call, s'.calls[t]? = some call → ∀ o, call.status = .finished o →
            o = .aborted ∨ ∃ e, o = .returned (.created ⟨some e, false⟩) ∧ e.id = d.id) := by
  refine ⟨fun ok h => insertsOnce_of_reaches h, fun h => ⟨⟨insertsOnce_of_reaches h, ?_⟩, ?_⟩⟩
  · exact fun call hcall r file hq hfile o ho => answered_of_reaches h hfile hcall hq ho
  · intro t r file hw d hd hholds s' h' call hget o ho
    cases (hw.meeting h hd hholds).run h hw.file h' with
    | running hrun _ _ =>
        have hstatus := hrun.status
        rw [Option.some.inj (hrun.get.symm.trans hget), ho] at hstatus
        cases hstatus
    | ended hget' ho' hout =>
        rw [Option.some.inj (hget'.symm.trans hget), ho] at ho'
        rw [Status.finished.inj ho']
        exact hout

/-! ## Two runs -/

/-- Nothing is being deleted. -/
def Calm (s : Sys) (l : Event) : Bool :=
  (s.calls.all fun call => match call.request with
    | .deleteDocument _ => false
    | _ => true) &&
  match l with
  | .begin (.createDocument r) => match assertPdf r.file with
    | .ok file => nulFree (r.title.getD file.originalname)
    | .error _ => true
  | .exec _ c => s.db.documents.all fun d => d.id ≠ c.fresh 0
  | _ => true

theorem unraced_of_calm (h : Calm s l = true) : Unraced digest s l := by
  obtain ⟨hcalls, hlabel⟩ := Bool.and_eq_true_iff.mp h
  refine ⟨fun u call tx req _ hrun hq => ?_, fun r file hl hfile => ?_, fun t c hl d hd => ?_⟩
  · have hcall := List.all_eq_true.mp hcalls call (List.mem_of_getElem? hrun.get)
    rw [hq] at hcall
    cases hcall
  · rw [hl] at hlabel
    simpa only [hfile] using hlabel
  · rw [hl] at hlabel
    simpa using List.all_eq_true.mp hlabel d hd

set_option maxRecDepth 100000 in
/-- The same file twice. -/
theorem deduplicated_of_reupload : ∃ s : Sys, s.db.documents.length = 1 ∧ s.calls.length = 2 ∧ Deduplicated Day.hash s := by
  obtain ⟨s, hs, hlen⟩ := Day.reaches (fun s l => Calm s l = true)
    (Day.alone 0 2 (.createDocument Day.upload) ++ Day.alone 1 2 (.createDocument Day.upload))
    (fun s => (s.db.documents.length, s.calls.length)) (a := (1, 2)) (by decide +kernel) (by decide +kernel)
  have hrun : Reaches Day.hash (Unraced Day.hash) s := hs.mono fun _ _ h => unraced_of_calm h
  exact ⟨s, congrArg Prod.fst hlen, congrArg Prod.snd hlen, ((deduplicated_of_unraced Day.hash s).2 hrun).1⟩

/-- What a call has answered. -/
def returned (call : Call Db Write Lock Failure Choice Request Response) : Option Response :=
  match call.status with
  | .finished (.returned res) => some res
  | _ => none

theorem status_of_returned {call : Call Db Write Lock Failure Choice Request Response} {res : Response}
    (h : returned call = some res) : call.status = .finished (.returned res) := by
  unfold returned at h
  split at h
  · next res' hst => rw [hst, Option.some.inj h]
  · cases h

set_option maxRecDepth 100000 in
/-- **A deletion between the insert of an upload and its read** leaves it without a document, and its route with a
`TypeError`. -/
theorem not_deduplicated :
    (¬ ∀ s, Reaches Day.hash newIds s → Deduplicated Day.hash s) ∧
      CreateResult.wantsJob ⟨none, false⟩ = .error undefinedDocument := by
  refine ⟨fun hall => ?_, rfl⟩
  obtain ⟨s, hs, hcall⟩ := Day.reaches newIds
    (Day.alone 0 2 (.createDocument Day.upload) ++ Day.opens 1 1 (.createDocument Day.upload) ++
      Day.alone 2 4 (.deleteDocument Day.document) ++ [.exec 1 (Day.choice 110), .prepare 1, .commit 1])
    (fun s => s.calls[1]?.map fun call => (call.request, returned call))
    (a := some (.createDocument Day.upload, some (.created ⟨none, false⟩))) (by decide +kernel) (by decide +kernel)
  obtain ⟨call, hget, hpair⟩ := Option.map_eq_some_iff.mp hcall
  obtain ⟨hq, hres⟩ := Prod.mk.inj hpair
  rcases (hall s hs).answers call (List.mem_of_getElem? hget) _ _ hq rfl _ (status_of_returned hres) with hout | ⟨d, created, hout⟩
  · cases hout
  · cases hout

end FinSight.Documents

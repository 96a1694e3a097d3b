import FinSight.Documents.Commit
import FinSight.ReadCommitted.Discipline

/-!
# Every interleaving of the document service commits as `Commit` says

* `meets_insertDocument`, `meets_updateDocument`, … : one rule for each statement;
* `program_meets` : what the calls commit, and that they hold the locks for it;
* `discipline`, `sound_of_reaches`, `consistent_of_reaches`, `commit_of_step` : any number of calls together;
* `commit_of_alone` : a call by itself, with no distance between what it reads and where it commits.
-/

namespace FinSight.Documents

open ReadCommitted Documents.Sql
open FinSight.Sql (checked)

variable {α β : Type} {grow : Db → Db → Prop} [IsPreorder Db grow] {now : Nat} {fin : Db} {A : Tx β → Db → Prop}
  {Q : β → Db → List Write → List Lock → Prop} {prev : Db} {log : List Write} {locks : List Lock}

/-- The ends of a program; nothing is said of its errors. -/
abbrev Spec (grow : Db → Db → Prop) [IsPreorder Db grow] (now : Nat) (fin : Db) (A : Tx β → Db → Prop)
    (Q : β → Db → List Write → List Lock → Prop) (p : Tx β) (prev : Db) (log : List Write) (locks : List Lock) : Prop :=
  p.Meets engine (protocol grow) now fin A Q (fun _ _ _ => True) prev log locks

abbrev Rely (grow : Db → Db → Prop) [IsPreorder Db grow] (locks : List Lock) (a b : Db) : Prop :=
  (protocol grow).Rely locks a b

/-- The ends after a reply. -/
abbrev Goes (grow : Db → Db → Prop) [IsPreorder Db grow] (now : Nat) (fin : Db) (A : Tx β → Db → Prop)
    (Q : β → Db → List Write → List Lock → Prop) (k : α → Tx β) (db : Db) (log : List Write) (locks : List Lock)
    (reply : Reply Write Lock Failure α) : Prop :=
  ReadCommitted.Continues engine (protocol grow) now fin A Q (fun _ _ _ => True) k db log locks reply

/-- A checked statement that does not fail has passed its checks. -/
theorem Goes.checked {checks : List (Bool × SqlState)} {reply : Reply Write Lock Failure α} {k : α → Tx β} {db : Db}
    (h : (∀ c ∈ checks, c.1 = true) → Goes grow now fin A Q k db log locks reply) :
    Goes grow now fin A Q k db log locks (checked checks reply) :=
  FinSight.Sql.continues_checked (fun _ _ => trivial) h

/-! ## What locks keep -/

theorem document_eq {db : Db} (h : Rely grow locks db fin) {id : Uuid} (hℓ : Lock.document id ∈ locks) :
    fin.documents.filter (fun d => d.id = id) = db.documents.filter fun d => d.id = id :=
  congrArg Observation.documents (h.agree _ hℓ)

theorem mem_of_locked {db : Db} (h : Rely grow locks db fin) {d : Document} (hℓ : Lock.document d.id ∈ locks) :
    d ∈ fin.documents ↔ d ∈ db.documents := by
  have hmem : ∀ db' : Db, d ∈ db'.documents ↔ d ∈ db'.documents.filter fun x => x.id = d.id := by simp
  rw [hmem fin, hmem db, document_eq h hℓ]

/-- A locked id that no row has stays free. -/
theorem id_free {db : Db} (h : Rely grow locks db fin) {id : Uuid} (hℓ : Lock.document id ∈ locks)
    (hfree : ∀ d ∈ db.documents, d.id ≠ id) : ∀ d ∈ fin.documents, d.id ≠ id := by
  have hnone : db.documents.filter (fun d => d.id = id) = [] := by
    rw [List.filter_eq_nil_iff]
    exact fun d hd => by simpa using hfree d hd
  have heq := document_eq h hℓ
  rw [hnone, List.filter_eq_nil_iff] at heq
  exact fun d hd => by simpa using heq d hd

/-- A locked index entry that is free stays free. -/
theorem key_free {db : Db} (h : Rely grow locks db fin) {t : Uuid} {hash : Text} (hℓ : Lock.documentKey t hash ∈ locks)
    (hfree : ¬ db.documents.any (fun d => d.tenantId = t && d.contentSha256 = hash) = true) :
    ∀ d ∈ fin.documents, ¬ (d.tenantId = t ∧ d.contentSha256 = hash) := by
  have htaken : (fin.documents.any fun d => d.tenantId = t && d.contentSha256 = hash) =
      db.documents.any fun d => d.tenantId = t && d.contentSha256 = hash :=
    congrArg Observation.taken (h.agree _ hℓ)
  intro d hd hkey
  refine hfree (htaken.symm.trans (List.any_eq_true.mpr ⟨d, hd, ?_⟩))
  simp [hkey.1, hkey.2]

/-! ## Rules -/

theorem meets_insertDocument {v : DocumentValues} {k : Option Document → Tx β}
    (htaken : ∀ db, Rely grow locks prev db → Spec grow now fin A Q (k none) db [] locks)
    (hnew : ∀ db d, d = ⟨d.id, v.tenantId, some (toWellFormed v.title), v.contentSha256, .pending, none, none, now, now⟩ →
      (∀ x ∈ fin.documents, x.id ≠ d.id) →
      (∀ x ∈ fin.documents, ¬ (x.tenantId = v.tenantId ∧ x.contentSha256 = v.contentSha256)) →
      Spec grow now fin A Q (k (some d)) db [.document d]
        (locks ++ [.document d.id, .documentKey v.tenantId v.contentSha256])) :
    Spec grow now fin A Q (Program.statement (insertDocument v) >>= k) prev [] locks := by
  refine Program.Meets.call fun db c h₁ h₂ _ => Goes.checked fun _ => ?_
  rw [Engine.view_nil]
  split
  · exact ReadCommitted.Continues.done (htaken db h₁)
  · next hany =>
    refine Goes.checked fun hall hl => ?_
    have hfree := List.all_eq_true.mp (hall _ List.mem_cons_self)
    refine hnew db _ rfl (id_free hl (by simp) fun x hx => by simpa using hfree x hx) ?_
    exact key_free hl (by simp) hany

/-- The rows that an update with this request may take. -/
theorem meets_updateDocument {checks : List (Bool × SqlState)} {r : DocumentRequest} {statuses : List DocumentStatus}
    {set : Timestamp → DocumentState → DocumentState} {k : Option Document → Tx β}
    (hnone : ∀ db, Rely grow locks prev db → Rely grow locks db fin → Unmatched r statuses db →
      Spec grow now fin A Q (k none) db [] locks)
    (hsome : ∀ db d, Rely grow (locks ++ [.document d.id]) db fin → Matches fin r statuses d →
      Spec grow now fin A Q (k (some (d.set (set now d.state)))) db [.updateDocument d.id (set now d.state)]
        (locks ++ [.document d.id])) :
    Spec grow now fin A Q
      (Program.statement (updateDocument checks r.documentId.uuid r.tenantId statuses set) >>= k) prev [] locks := by
  refine Program.Meets.call fun db c h₁ h₂ _ => Goes.checked fun _ => ?_
  rw [Engine.view_nil]
  split
  · next hfind =>
    refine ReadCommitted.Continues.done (hnone db h₁ h₂ fun d hd => ?_)
    have hno := List.find?_eq_none.mp hfind d hd.mem
    simp [hd.is, hd.status] at hno
  · next d hfind =>
    intro hl
    have hd := List.find?_some hfind
    rw [Bool.and_eq_true, List.contains_iff_mem] at hd
    exact hsome db d hl ⟨(mem_of_locked hl (by simp)).mpr (List.mem_of_find?_eq_some hfind), hd.1, hd.2⟩

theorem meets_insertChunks {w : WriteRequest} {d : Document} (hd : d.is w.document.documentId.uuid w.document.tenantId = true)
    (hsome : w.chunks.length ≠ 0) (hlen : w.chunks.length = w.vectors.length) {k : Unit → Tx β}
    (h : ∀ db (rows : List DocumentChunk), Chunked w d rows → ∀ locks',
      Spec grow now fin A Q (k ()) db (log ++ rows.map .chunk) (locks ++ locks')) :
    Spec grow now fin A Q
      (Program.statement (insertChunks w.document.documentId.uuid w.document.tenantId w.values) >>= k) prev log locks := by
  refine Program.Meets.call fun db c _ _ _ => Goes.checked fun _ _ => ?_
  rw [Document.is_iff] at hd
  have hcount : w.values.length = w.chunks.length := by
    rw [WriteRequest.values, List.length_map, List.length_zip, ← hlen, Nat.min_self]
  refine h db _ ⟨⟨?_, ?_, ?_⟩, ?_, ?_⟩ _
  · rw [List.length_map, List.length_zipIdx, hcount]
  · rw [List.length_map, List.length_zipIdx, hcount, hlen]
  · intro j row ordinal chunk v hrow hchunk hvector
    have hvalue : (w.chunks.zip w.vectors)[j]? = some ((ordinal, chunk), v) :=
      List.getElem?_zip_eq_some.mpr ⟨hchunk, hvector⟩
    rw [List.getElem?_map, List.getElem?_zipIdx, WriteRequest.values, List.getElem?_map, hvalue] at hrow
    cases hrow
    exact ⟨rfl, rfl, rfl, rfl, rfl, rfl, rfl, rfl⟩
  · intro hnil
    rw [List.map_eq_nil_iff, List.zipIdx_eq_nil_iff] at hnil
    exact hsome (by rw [← hcount, hnil, List.length_nil])
  · intro c hc
    obtain ⟨v, _, rfl⟩ := List.mem_map.mp hc
    rw [DocumentChunk.of_iff]
    exact ⟨hd.1.symm, hd.2.symm⟩

/-! ## The calls -/

variable {digest : List UInt8 → Text}

/-- The commit database is not before a database that the transaction has read. -/
theorem Earlier.of_rely {db : Db} {P : Db → Prop} (h : Rely grow locks db fin) (hP : P db) : Earlier grow fin P :=
  ⟨db, h.grow, hP⟩

/-- What a call owes when it commits. -/
def Post (digest : List UInt8 → Text) (grow : Db → Db → Prop) (fin : Db) (now : Timestamp) (q : Request) (r : Response)
    (log : List Write) (locks : List Lock) : Prop :=
  Commit digest grow fin now q r log ∧ ReadCommitted.Covered engine Write.needs fin log locks

theorem spec_createDocument {r : UploadRequest} {A : Tx CreateResult → Db → Prop} :
    Spec grow now fin A (fun res _ log locks => Post digest grow fin now (.createDocument r) (.created res) log locks)
      (createDocument digest r) prev [] [] := by
  unfold createDocument
  split
  · exact trivial
  · next file hfile =>
    refine meets_insertDocument ?_ ?_
    · intro db _
      refine Program.Meets.read (fun _ _ => rfl) fun db' _ _ h₂ => ?_
      exact ⟨.existing hfile (Earlier.of_rely h₂ rfl), trivial⟩
    · intro db d hrow hid hkey
      refine Program.Meets.call fun db' c _ _ _ => Goes.checked fun _ _ => ?_
      refine ⟨.created hfile ⟨hrow, hid, hkey, rfl⟩, fun ℓ hℓ => ?_, fun ℓ hℓ => ?_, trivial⟩
      · rw [Write.needs, hrow] at hℓ
        exact List.mem_append_left _ hℓ
      · simp only [Write.needs, List.mem_singleton] at hℓ
        simp [hℓ]

theorem spec_retryDocument {r : DocumentRequest} {A : Tx Document → Db → Prop} :
    Spec grow now fin A (fun d _ log locks => Post digest grow fin now (.retryDocument r) (.document d) log locks)
      (retryDocument r) prev [] [] := by
  refine meets_updateDocument ?_ ?_
  · intro db _ _ _
    refine Program.Meets.bind (Program.Meets.read (fun _ _ => rfl) fun db' _ _ _ => ?_)
    split <;> exact trivial
  · intro db d _ hm
    refine ⟨.retried hm, fun ℓ hℓ => ?_, trivial⟩
    exact List.mem_append_right _ hℓ

theorem spec_deleteDocument {r : DocumentRequest} {A : Tx Unit → Db → Prop} (hA : ∀ p db, A p db → Consistent digest db) :
    Spec grow now fin A (fun _ _ log locks => Post digest grow fin now (.deleteDocument r) .deleted log locks)
      (deleteDocument r) prev [] [] := by
  refine Program.Meets.call fun db c _ _ _ => ?_
  rw [Engine.view_nil]
  unfold selectDocumentForUpdate
  cases hfind : db.documents.find? (Document.is r.documentId.uuid r.tenantId) with
  | none => exact ReadCommitted.Continues.done trivial
  | some d =>
      intro hl
      have his := List.find?_some hfind
      have hd : d ∈ fin.documents := (mem_of_locked hl (by simp)).mpr (List.mem_of_find?_eq_some hfind)
      obtain ⟨hid, ht⟩ := Document.is_iff.mp his
      refine Program.Meets.ite (fun _ => trivial) fun hbusy => ?_
      refine Program.Meets.call fun db₁ _ _ _ _ _ => Program.Meets.call fun db₂ _ _ _ _ _ => ?_
      refine Program.Meets.call fun db₃ c₃ _ h₃ hA₃ h₃' => ?_
      have hmem₃ : d ∈ db₃.documents := (mem_of_locked h₃ (by simp)).mp hd
      rw [← hid, ← ht]
      refine ⟨.deleted ⟨hd, his, ?_⟩, fun ℓ hℓ => ?_, fun ℓ hℓ => ?_, fun ℓ hℓ => ?_, trivial⟩
      · cases hs : d.status with
        | processing => exact absurd hs hbusy
        | _ => decide
      · simp only [Write.needs, List.mem_singleton] at hℓ
        simp [hℓ]
      · simp only [Write.needs, List.mem_singleton] at hℓ
        simp [hℓ]
      · rcases List.mem_cons.mp hℓ with rfl | hℓ
        · simp
        · -- the rows of the id are the row that was selected
          obtain ⟨e, he, rfl⟩ := List.mem_map.mp hℓ
          rw [List.mem_filter] at he
          have hed : e = d := by
            have heid : e.id = d.id := (Document.is_iff.mp he.2).1
            have hemem : e ∈ db₃.documents := by
              refine (mem_of_locked h₃ ?_).mp he.1
              rw [heid]
              simp
            exact (hA _ _ hA₃).eq_of_id hemem hmem₃ heid
          refine List.mem_append_right _ (List.mem_flatMap.mpr ⟨d, List.mem_filter.mpr ⟨hmem₃, ?_⟩, ?_⟩)
          · exact Document.is_iff.mpr ⟨rfl, rfl⟩
          · rw [hed]
            simp

theorem spec_claimDocument {r : DocumentRequest} {A : Tx (Option Document) → Db → Prop} :
    Spec grow now fin A (fun d _ log locks => Post digest grow fin now (.claimDocument r) (.claimed d) log locks)
      (claimDocument r) prev [] [] := by
  refine meets_updateDocument (k := Program.ret) ?_ ?_
  · exact fun db _ h hno => ⟨.unclaimed (Earlier.of_rely h hno), trivial⟩
  · exact fun db d _ hm => ⟨.claimed hm, fun ℓ hℓ => List.mem_append_right _ hℓ, trivial⟩

theorem covered_chunks {rows : List DocumentChunk} {d : Document} (hrows : ∀ c ∈ rows, c.of d.id d.tenantId = true)
    (hℓ : Lock.document d.id ∈ locks) (db : Db) : ReadCommitted.Covered engine Write.needs db (rows.map .chunk) locks := by
  induction rows generalizing db with
  | nil => trivial
  | cons c rows ih =>
      refine ⟨fun ℓ hn => ?_, ih (fun x hx => hrows x (List.mem_cons_of_mem _ hx)) _⟩
      rw [Write.needs, List.mem_singleton] at hn
      rw [hn, (DocumentChunk.of_iff.mp (hrows c List.mem_cons_self)).1]
      exact hℓ

theorem spec_writeChunks {w : WriteRequest} {A : Tx Bool → Db → Prop} :
    Spec grow now fin A (fun b _ log locks => Post digest grow fin now (.writeChunks w) (.written b) log locks)
      (writeChunks w) prev [] [] := by
  refine Program.Meets.ite (fun _ => trivial) fun hsome => ?_
  refine Program.Meets.ite (fun _ => trivial) fun hlen => ?_
  refine meets_updateDocument ?_ ?_
  · exact fun db _ h hno => ⟨.lost (Earlier.of_rely h hno), trivial⟩
  · intro db d hl hm
    obtain ⟨hid, ht⟩ := Document.is_iff.mp hm.is
    refine Program.Meets.call fun db₁ _ _ _ _ _ => ?_
    refine meets_insertChunks hm.is hsome (not_not.mp hlen) fun db₂ rows hrows locks' => ?_
    rw [← hid, ← ht]
    refine ⟨.written hm hrows, fun ℓ hℓ => ?_, fun ℓ hℓ => ?_, covered_chunks hrows.owner (by simp) _⟩
    · rw [Write.needs, List.mem_singleton] at hℓ
      simp [hℓ]
    · rw [Write.needs, List.mem_singleton] at hℓ
      simp [hℓ]

theorem spec_markDocumentsFailed {r : DocumentRequest} {message : Text} {A : Tx Unit → Db → Prop} :
    Spec grow now fin A (fun _ _ log locks => Post digest grow fin now (.markDocumentsFailed r message) .marked log locks)
      (markDocumentsFailed r message) prev [] [] := by
  refine meets_updateDocument ?_ ?_
  · exact fun db _ h hno => ⟨.unmarked (Earlier.of_rely h hno), trivial⟩
  · exact fun db d _ hm => ⟨.marked hm, fun ℓ hℓ => List.mem_append_right _ hℓ, trivial⟩

theorem program_meets (q : Request) (now : Nat) (origin fin : Db) :
    (program digest q).Meets engine (protocol grow) now fin (fun _ db => Consistent digest db)
      (fun r _ log locks => Post digest grow fin now q r log locks) (fun _ _ _ => True) origin [] [] := by
  cases q with
  | createDocument r => exact Program.Meets.bind spec_createDocument
  | getDocument r =>
      refine Program.Meets.bind (Program.Meets.read (fun _ _ => rfl) fun db _ _ h => ?_)
      rw [Engine.view_nil]
      cases hfind : db.documents.find? (Document.is r.documentId.uuid r.tenantId) with
      | none => exact trivial
      | some d =>
          exact ⟨.document (Earlier.of_rely h ⟨List.mem_of_find?_eq_some hfind, List.find?_some hfind⟩), trivial⟩
  | retryDocument r => exact Program.Meets.bind spec_retryDocument
  | deleteDocument r => exact Program.Meets.bind (spec_deleteDocument fun _ _ h => h)
  | claimDocument r => exact Program.Meets.bind spec_claimDocument
  | selectFile r =>
      refine Program.Meets.bind (Program.Meets.read (k := Program.ret) (fun _ _ => rfl) fun db _ _ h => ?_)
      exact ⟨.file (Earlier.of_rely h rfl), trivial⟩
  | writeChunks w => exact Program.Meets.bind spec_writeChunks
  | markDocumentsFailed r message => exact Program.Meets.bind spec_markDocumentsFailed

/-- The service obeys its locks. -/
def discipline (digest : List UInt8 → Text) (ok : Sys → Event → Prop) (grow : Db → Db → Prop) [IsPreorder Db grow]
    (hgrow : ∀ {db now q r log}, Commit digest grow db now q r log → grow db (engine.view log db)) :
    Discipline (L := Lock) (C := Choice) engine (program digest) where
  protocol := protocol grow
  ok := ok
  inv := Consistent digest
  assumes _ _ db := Consistent digest db
  post q now _ r log locks db := Post digest grow db now q r log locks
  fail _ _ _ _ _ _ _ := True
  ok_exec _ _ hinv := hinv
  meets q now origin fin := program_meets q now origin fin
  deferred _ _ _ := trivial
  commit h hpost _ := ⟨hpost.1.consistent h, hpost.2.guarantee observe_apply (hgrow hpost.1)⟩

/-! ## Interleavings -/

/-- Any database may come after any other. -/
def anyDb (_ _ : Db) : Prop := True

instance : IsPreorder Db anyDb where
  refl _ := trivial
  trans _ _ _ _ _ := trivial

variable {ok : Sys → Event → Prop}

abbrev base (digest : List UInt8 → Text) (ok : Sys → Event → Prop) :
    Discipline (L := Lock) (C := Choice) engine (program digest) :=
  discipline digest ok anyDb fun _ => trivial

theorem sound_of_reaches {s : Sys} (h : Reaches digest ok s) : (base digest ok).Sound s :=
  Discipline.sound (Discipline.sound_init (s := init) _ rfl (Consistent.empty digest)) h

/-- **Every interleaving leaves the document tables consistent.** -/
theorem consistent_of_reaches {s : Sys} (h : Reaches digest ok s) : Consistent digest s.db := (sound_of_reaches h).inv

/-- What a step does to the committed database. -/
inductive Step (digest : List UInt8 → Text) (s : Sys) (l : Event) (s' : Sys) : Prop
  | quiet : s'.db = s.db → Step digest s l s'
  | commit {t call tx r} : l = .commit t → s.Running t call tx → tx.program = .ret r →
      Commit digest anyDb s.db call.startedAt call.request r tx.log →
      s' = { s.setStatus t (.finished (.returned r)) with db := engine.view tx.log s.db } → Step digest s l s'

theorem commit_of_step {s s' : Sys} {l : Event} (h : Reaches digest ok s)
    (hstep : s.step engine (program digest) l = some s') : Step digest s l s' := by
  cases Discipline.event (sound_of_reaches h) hstep with
  | tick _ => exact .quiet rfl
  | begin _ => exact .quiet rfl
  | work _ => exact .quiet rfl
  | returned hrun hr hpost _ _ => exact .commit rfl hrun hr hpost.1 rfl
  | failed _ _ _ => exact .quiet rfl
  | aborted _ => exact .quiet rfl

/-! ## One call at a time -/

/-- **A call by itself commits what `Commit` says**, and what it has read is what it commits on. -/
theorem commit_of_alone {db : Db} (h : Consistent digest db) {q : Request} {r : Response} {now : Nat}
    {choices rest : Nat → Choice} (hrun : (program digest q).alone engine now db [] choices = (.ok r, log, rest)) :
    Commit digest Eq db now q r log := by
  have hmeets : (program digest q).Meets engine (protocol Eq) now db (fun _ db => Consistent digest db)
      (fun r _ log locks => Post digest Eq db now q r log locks) (fun _ _ _ => True) db [] [] :=
    program_meets q now db db
  have hend := hmeets.alone (fun _ => h) choices
  rw [hrun] at hend
  obtain ⟨locks, hpost, -⟩ := hend
  exact hpost

end FinSight.Documents

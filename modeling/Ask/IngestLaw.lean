/-
  What an ingest job does on a host of which nothing fails: it upserts, one
  after the other, the files that its candidates lead to.
-/
import Ask.Ingest
import Ask.SandboxLaw

namespace Ask

open Lib Lib.OsStr Act

variable {E : Env} {host : Host} {vector : EmbeddingModel → Bytes → Vector32} {m : EmbeddingModel}
  {w w' w₁ : World} {entry : JobQueueEntry} {path : String} {route : IngestRoute}
  {payload : IngestFolderPayload} {isMatch : String → Bool} {modelId : ℤ}

/-! ## The files of a job -/

namespace Host

variable (host : Host)

/-- Where a candidate leads, if it passes and leads to a file. -/
def leadsTo (requestRoot : String) (isMatch : String → Bool) (applyGitFilters : Bool)
    (candidatePath : String) : Option String :=
  match normalizeRelativePath requestRoot candidatePath with
  | none => none
  | some relativePath =>
    if isMatch relativePath && !(applyGitFilters && shouldSkipGitCandidate candidatePath) then
      (host.canonicalize candidatePath).filter fun p => (host.view p).isSome
    else none

/-- The file of a walked entry. -/
def entryFiles (requestRoot : String) (isMatch : String → Bool) (applyGitFilters : Bool) :
    Except String DirEntry → List String
  | .error _ => []
  | .ok entry =>
    if entry.isFile = some true then
      (host.leadsTo requestRoot isMatch applyGitFilters entry.path).toList
    else []

/-- The files of a walk. -/
def walkFiles (requestRoot walkRoot : String) (isMatch : String → Bool) (skippedRoots : List String)
    (applyGitFilters : Bool) : List String :=
  ((host.walk walkRoot).filter fun entry =>
    match entry with
    | .ok entry => shouldVisitWalkEntry entry.path walkRoot skippedRoots
    | .error _ => true).flatMap (host.entryFiles requestRoot isMatch applyGitFilters)

/-- The files of a repository. -/
def repoFiles (requestRoot : String) (isMatch : String → Bool) (repoRoot : String) : List String :=
  match host.gitListTrackedFiles repoRoot with
  | .error _ => []
  | .ok tracked => tracked.flatMap fun trackedPath =>
      (host.leadsTo requestRoot isMatch true (joinPath repoRoot trackedPath)).toList

/-- The files of a plan: its repositories', then the walk's. -/
def planFiles (requestRoot : String) (isMatch : String → Bool) (plan : GitIngestPlan) : List String :=
  plan.repoRoots.flatMap (host.repoFiles requestRoot isMatch) ++
    match plan.fallbackRoot with
    | some fallbackRoot => host.walkFiles requestRoot fallbackRoot isMatch plan.skippedWalkRoots false
    | none => []

/-- The files that a job takes up, in its order; `fuel` is for the search of repositories. -/
def jobFiles (fuel : ℕ) (route : IngestRoute) (payload : IngestFolderPayload) (isMatch : String → Bool) :
    Option (List String) :=
  if !host.isDir payload.rootPath then some []
  else match route with
  | .ingest => some (host.walkFiles payload.rootPath payload.rootPath isMatch [] false)
  | .ingestGit =>
    match host.buildGitIngestPlan fuel payload.rootPath with
    | some (.ok plan) => some (host.planFiles payload.rootPath isMatch plan)
    | _ => none

end Host

section
variable {requestRoot candidatePath p : String} {applyGitFilters : Bool}

theorem leadsTo_eq_some : host.leadsTo requestRoot isMatch applyGitFilters candidatePath = some p ↔
    Leads host requestRoot isMatch applyGitFilters candidatePath p := by
  unfold Host.leadsTo
  constructor
  · intro h
    split at h
    · cases h
    · rename_i relativePath hrel
      split_ifs at h with hpass
      obtain ⟨hmatch, hkept⟩ := Bool.and_eq_true_iff.1 hpass
      obtain ⟨hcanonical, hfile⟩ := Option.filter_eq_some_iff.1 h
      exact ⟨⟨⟨relativePath, hrel, hmatch⟩, (Bool.not_eq_true' _).mp hkept⟩, hcanonical,
        Option.isSome_iff_ne_none.1 hfile⟩
  · rintro ⟨⟨⟨relativePath, hrel, hmatch⟩, hkept⟩, hcanonical, hfile⟩
    rw [hrel]
    dsimp only
    rw [hmatch, hkept]
    exact Option.filter_eq_some_iff.2 ⟨hcanonical, Option.isSome_iff_ne_none.2 hfile⟩

theorem leadsTo_of_not_passes (h : ¬Passes requestRoot isMatch applyGitFilters candidatePath) :
    host.leadsTo requestRoot isMatch applyGitFilters candidatePath = none := by
  cases hp : host.leadsTo requestRoot isMatch applyGitFilters candidatePath with
  | none => rfl
  | some p => exact absurd (leadsTo_eq_some.1 hp).passes h

end

/-! ## Runs that end well -/

/-- With the file there, a part that reads it yields what it is for. -/
theorem done_attempt_file {α : Type} {p : Act α} {G : Bytes → α → Prop} {file : Bytes} {x : Except AnyError α}
    (hp : Task.Calls FileReq p)
    (hv : ∀ entry, Yields E host.view False Alone entry p (FromFile host.view False path G))
    (hfile : host.view path = some file) (h : host.Done (attempt p) w x w') :
    w'.store = w.store ∧ ∃ a, x = .ok a ∧ G file a := by
  obtain ⟨y, w₁, hrun, hpure⟩ := Task.done_andThen.1 h
  obtain ⟨rfl, rfl⟩ := Task.done_pure.1 hpure
  have hI : Stable Alone fun w₁ => w₁.store = w.store := fun w₁ w₂ h₁₂ h₁ => h₁₂.1.trans h₁
  have hsat := (sat_file admissible_alone hI hp rfl).and (hv ⟨0, .embedDocument, "", none, 0⟩ w)
  obtain ⟨hstore, hyields⟩ := (Proc.Runs.sat admissible_alone.refl And.left hrun hsat).2
  refine ⟨hstore, ?_⟩
  cases y with
  | ok a =>
    obtain ⟨file', hfile', hG⟩ := hyields
    obtain rfl := Option.some.inj (hfile.symm.trans hfile')
    exact ⟨a, rfl, hG⟩
  | error e =>
    obtain hnone | hfalse := hyields
    · rw [hfile] at hnone
      cases hnone
    · exact hfalse.elim

theorem ingestsFile_of_done {metadata : Metadata} {file : Bytes} (htext : TextName path)
    (hfile : host.view path = some file)
    (hlen : metadata.len = file.length) (h : host.Done (ingestFile E path metadata m) w () w') :
    IngestsFile E host.view m w.store path w'.store := by
  unfold ingestFile at h
  rw [toStringLossy_text htext, bind_toStr_extension htext] at h
  obtain ⟨now, w₁, hnow, h1⟩ := Task.done_bind.1 h
  obtain rfl := done_unixNow And.left hnow
  obtain ⟨hashed, w₂, hhash, h2⟩ := Task.done_bind.1 h1
  obtain ⟨hs₂, fileHash, rfl, rfl⟩ :=
    done_attempt_file (calls_hashFile E path) (fun _ => yields_hashFile path) hfile hhash
  obtain ⟨read, w₃, hread, h3⟩ := Task.done_bind.1 h2
  obtain ⟨hs₃, contentPlan, rfl, rfl⟩ :=
    done_attempt_file (E := E) (calls_readPrefixWithBudget path _)
      (fun _ => yields_readPrefixWithBudget path _) hfile hread
  obtain ⟨_, w₄, hconn, h4⟩ := Task.done_bind.1 h3
  obtain rfl := done_connect And.left (done_context.1 hconn)
  obtain ⟨v, w₅, hupsert, h5⟩ := Task.done_bind.1 h4
  obtain ⟨-, rfl⟩ := Task.done_pure.1 h5
  have hok := done_db And.left (done_context.1 hupsert)
  rw [hs₃, hs₂] at hok
  refine ⟨file, _, now, v, hfile, ?_, ⟨?_, ?_, ?_, ?_, ?_⟩, ?_, hok⟩
  · rfl
  · rfl
  · rfl
  · exact congrArg _ hlen
  · rfl
  · rfl
  · rfl

theorem run_of_done_resolved {candidatePath : String}
    (h : host.Done (ingestResolved E candidatePath m) w () w') :
    Run (IngestsFile E host.view m) w.store
      ((host.canonicalize candidatePath).filter fun p => (host.view p).isSome).toList w'.store := by
  unfold ingestResolved at h
  obtain ⟨answer, w₁, hanswer, h1⟩ := Task.done_bind.1 h
  obtain ⟨hans, hsays⟩ := Task.done_ask.1 hanswer
  obtain rfl := hans
  obtain ⟨p, hp, rfl⟩ | ⟨hnone, e, rfl⟩ := hsays
  swap
  · rw [hnone.resolve_right id]
    obtain ⟨-, rfl⟩ := Task.done_pure.1 h1
    exact .nil _
  rw [hp]
  obtain ⟨found, w₂, hfound, h2⟩ := Task.done_bind.1 h1
  obtain ⟨⟨rfl, hmeta⟩, -⟩ := Task.done_ask.1 hfound
  obtain ⟨file, metadata, hview, rfl, hfile, hlen⟩ | ⟨hnone, hskip⟩ | ⟨hfalse, -⟩ := hmeta
  · dsimp only at h2
    rw [hfile] at h2
    rw [Option.filter_some, if_pos (by rw [hview]; rfl)]
    exact .cons (ingestsFile_of_done (Host.textName_canonicalize hp) hview hlen h2) (.nil _)
  · have hsame : w' = w₂ := by
      obtain ⟨metadata, rfl, hfile⟩ | ⟨e, rfl, -⟩ := hskip
      · dsimp only at h2
        rw [hfile] at h2
        exact (Task.done_pure.1 h2).2.symm
      · exact (Task.done_pure.1 h2).2.symm
    rw [Option.filter_some, if_neg (by rw [hnone]; simp), hsame]
    exact .nil _
  · exact hfalse.elim

/-- A candidate: the file it leads to, if there is one. -/
theorem run_of_done_candidate {requestRoot candidatePath : String} {applyGitFilters : Bool}
    (h : host.Done (ingestCandidateFile E requestRoot candidatePath isMatch m applyGitFilters) w () w') :
    Run (IngestsFile E host.view m) w.store
      (host.leadsTo requestRoot isMatch applyGitFilters candidatePath).toList w'.store := by
  by_cases hpass : Passes requestRoot isMatch applyGitFilters candidatePath
  · rw [ingestCandidateFile_passes hpass] at h
    have hleads : host.leadsTo requestRoot isMatch applyGitFilters candidatePath =
        (host.canonicalize candidatePath).filter fun p => (host.view p).isSome := by
      obtain ⟨⟨relativePath, hrel, hmatch⟩, hkept⟩ := hpass
      unfold Host.leadsTo
      rw [hrel]
      dsimp only
      rw [hmatch, hkept]
      rfl
    rw [hleads]
    exact run_of_done_resolved h
  · rw [ingestCandidateFile_skipped hpass] at h
    rw [leadsTo_of_not_passes hpass]
    obtain ⟨-, rfl⟩ := Task.done_pure.1 h
    exact .nil _

/-- A loop: the files of its rounds. -/
theorem run_of_done_each {α : Type} {f : α → Act Unit} {files : α → List String}
    (hf : ∀ a {w w'}, host.Done (f a) w () w' →
      Run (IngestsFile E host.view m) w.store (files a) w'.store) :
    ∀ {as : List α} {w : World}, host.Done (Task.each f as) w () w' →
      Run (IngestsFile E host.view m) w.store (as.flatMap files) w'.store
  | [], w, h => by
    obtain ⟨-, rfl⟩ := Task.done_pure.1 h
    exact .nil _
  | a :: as, w, h => by
    obtain ⟨_, w₁, hone, hrest⟩ := Task.done_bind.1 h
    rw [List.flatMap_cons]
    exact (hf a hone).append (run_of_done_each hf hrest)

theorem run_of_done_walk {requestRoot walkRoot : String} {skippedRoots : List String} {applyGitFilters : Bool}
    (h : host.Done (ingestWalkRoot E requestRoot walkRoot isMatch m skippedRoots applyGitFilters) w () w') :
    Run (IngestsFile E host.view m) w.store
      (host.walkFiles requestRoot walkRoot isMatch skippedRoots applyGitFilters) w'.store := by
  unfold ingestWalkRoot at h
  obtain ⟨walker, w₁, hwalk, h1⟩ := Task.done_bind.1 h
  obtain ⟨hans, rfl⟩ := Task.done_ask.1 hwalk
  obtain rfl := hans
  refine run_of_done_each (fun entry w w' h => ?_) h1
  cases entry with
  | error e =>
    obtain ⟨-, rfl⟩ := Task.done_pure.1 h
    exact .nil _
  | ok entry =>
    dsimp only [ingestWalkEntry] at h
    rw [Host.entryFiles]
    split_ifs at h ⊢
    · exact run_of_done_candidate h
    · obtain ⟨-, rfl⟩ := Task.done_pure.1 h
      exact .nil _

theorem run_of_done_repo {requestRoot repoRoot : String}
    (h : host.Done (ingestGitRepo E requestRoot repoRoot isMatch m) w () w') :
    Run (IngestsFile E host.view m) w.store (host.repoFiles requestRoot isMatch repoRoot) w'.store := by
  unfold ingestGitRepo at h
  obtain ⟨answer, w₁, hanswer, h1⟩ := Task.done_bind.1 h
  obtain ⟨hans, hsays⟩ := Task.done_ask.1 hanswer
  obtain rfl := hans.1
  obtain rfl | ⟨hfalse, -⟩ := hsays
  swap
  · exact hfalse.elim
  obtain ⟨tracked, w₂, hlist, h2⟩ := Task.done_bind.1 h1
  obtain ⟨htracked, rfl⟩ := Task.done_ofExcept.1 (done_context.1 hlist)
  unfold Host.repoFiles
  rw [htracked]
  exact run_of_done_each (fun _ _ _ => run_of_done_candidate) h2

/-- The plan of a git job: its repositories, then what no repository holds. -/
theorem run_of_done_plan {plan : GitIngestPlan} {requestRoot : String}
    (hrepos : host.Done (Task.each (fun repoRoot => ingestGitRepo E requestRoot repoRoot isMatch m)
      plan.repoRoots) w () w₁)
    (hfallback : host.Done (match plan.fallbackRoot with
      | some fallbackRoot =>
        ingestWalkRoot E requestRoot fallbackRoot isMatch m plan.skippedWalkRoots false
      | none => pure ()) w₁ () w') :
    Run (IngestsFile E host.view m) w.store (host.planFiles requestRoot isMatch plan) w'.store := by
  refine (run_of_done_each (fun _ _ _ => run_of_done_repo) hrepos).append ?_
  split at hfallback
  · exact run_of_done_walk hfallback
  · obtain ⟨-, rfl⟩ := Task.done_pure.1 hfallback
    exact .nil _

theorem done_loadIngestModel_eq {ctx : JobContext} (hm : m ∈ w.store.models.rows) (hid : m.id = ctx.ingestModelId)
    {model : EmbeddingModel} (h : host.Done (loadIngestModel ctx) w model w') :
    model = m ∧ w'.store = w.store := by
  unfold loadIngestModel at h
  obtain ⟨_, w₁, hconn, h1⟩ := Task.done_bind.1 h
  obtain rfl := done_connect And.left (done_context.1 hconn)
  obtain ⟨found, w₂, hfind, h2⟩ := Task.done_bind.1 h1
  obtain ⟨hget, hsame⟩ := Tx.ok_query.1 (done_db And.left hfind)
  obtain rfl := Except.ok.inj hget
  rw [AutoTable.get?_eq_some.2 ⟨hm, hid⟩] at h2
  obtain ⟨hmodel, rfl⟩ := done_someOr.1 h2
  exact ⟨(Option.some.inj hmodel).symm, hsame.symm⟩

/-- The start of a job: nothing to do, or the payload, the pattern and the model of the run. -/
theorem done_withIngestRoot {ctx : JobContext}
    {body : IngestFolderPayload → (String → Bool) → EmbeddingModel → Act Unit}
    (hdecode : E.decodeIngestPayload ctx.entry.payload = .ok payload)
    (hmatch : E.compilePattern payload.filePattern = .ok isMatch)
    (hm : m ∈ w.store.models.rows) (hid : m.id = ctx.ingestModelId)
    (h : host.Done (withIngestRoot E ctx body) w () w') :
    host.isDir payload.rootPath = false ∧ w'.store = w.store ∨
      host.isDir payload.rootPath = true ∧ ∃ w₁, w₁.store = w.store ∧
        host.Done (body payload isMatch m) w₁ () w' := by
  unfold withIngestRoot at h
  obtain ⟨payload', w₁, hload, h1⟩ := Task.done_bind.1 h
  obtain ⟨hpayload, rfl⟩ := Task.done_ofExcept.1 (done_context.1 hload)
  obtain rfl := Except.ok.inj (hdecode.symm.trans hpayload)
  obtain ⟨isMatch', w₂, hcompile, h2⟩ := Task.done_bind.1 h1
  obtain ⟨hpattern, rfl⟩ := Task.done_ofExcept.1 (done_context.1 (done_context.1 hcompile))
  obtain rfl := Except.ok.inj (hmatch.symm.trans hpattern)
  obtain ⟨isDir, w₃, hask, h3⟩ := Task.done_bind.1 h2
  obtain ⟨rfl, hsays⟩ := Task.done_ask.1 hask
  obtain rfl := hsays.resolve_right fun h => h.1
  split_ifs at h3 with hdir
  · obtain ⟨-, rfl⟩ := Task.done_pure.1 h3
    exact .inl ⟨by simpa using hdir, rfl⟩
  · obtain ⟨model, w₄, hmodel, h4⟩ := Task.done_bind.1 h3
    obtain ⟨rfl, hs₄⟩ := done_loadIngestModel_eq hm hid hmodel
    exact .inr ⟨by simpa using hdir, w₄, hs₄, h4⟩

/-- A dispatch that works runs its handler, then removes the job. -/
theorem done_dispatch (h : host.Done (dispatchJob E entry modelId) w () w') :
    ∃ w₁, host.Done ((resolveHandler E entry.jobType).process ⟨entry, modelId⟩) w () w₁ ∧
      w'.store = { w₁.store with jobs := completeJob w₁.store.jobs entry.id } := by
  rw [dispatchJob_eq] at h
  obtain ⟨x, w₁, hrun, hfin⟩ := Task.done_andThen.1 h
  cases x with
  | ok u =>
    refine ⟨w₁, hrun, ?_⟩
    obtain ⟨_, w₂, hconn, hdb⟩ := Task.done_bind.1 hfin
    obtain rfl := done_connect And.left (done_context.1 hconn)
    exact ok_exec_ok.1 (done_db And.left (done_context.1 hdb))
  | error err =>
    exfalso
    dsimp only [finishJob] at hfin
    split at hfin
    · simp at hfin
    · exact Task.done_fail hfin

/-! ## Jobs -/

/-- More fuel finds the same repositories. -/
theorem discoverRepos_mono {fuel fuel' : ℕ} (hle : fuel ≤ fuel') {stack found skipped : List String}
    {x : Except AnyError (List String × List String)}
    (h : host.discoverRepos fuel stack found skipped = some x) :
    host.discoverRepos fuel' stack found skipped = some x := by
  induction fuel generalizing fuel' stack found skipped with
  | zero =>
    cases stack with
    | nil => cases fuel' <;> exact h
    | cons dir stack => cases h
  | succ fuel ih =>
    cases fuel' with
    | zero => exact absurd hle (by omega)
    | succ fuel' =>
      have hle' : fuel ≤ fuel' := by omega
      cases stack with
      | nil => exact h
      | cons dir stack =>
        rw [Host.discoverRepos] at h ⊢
        split at h
        · exact h
        · exact ih hle' h
        · exact ih hle' h
        · split at h
          · exact h
          · split at h
            · exact h
            · exact ih hle' h

theorem buildGitIngestPlan_mono {fuel fuel' : ℕ} (hle : fuel ≤ fuel') {rootPath : String}
    {x : Except AnyError GitIngestPlan} (h : host.buildGitIngestPlan fuel rootPath = some x) :
    host.buildGitIngestPlan fuel' rootPath = some x := by
  unfold Host.buildGitIngestPlan at h ⊢
  split at h
  · exact h
  · exact h
  · obtain ⟨found, hfound, rfl⟩ := Option.map_eq_some_iff.1 h
    rw [discoverRepos_mono hle hfound]
    rfl

theorem jobFiles_mono {fuel fuel' : ℕ} (hle : fuel ≤ fuel') {files : List String}
    (h : host.jobFiles fuel route payload isMatch = some files) :
    host.jobFiles fuel' route payload isMatch = some files := by
  unfold Host.jobFiles at h ⊢
  split_ifs at h ⊢
  · exact h
  · cases route with
    | ingest => exact h
    | ingestGit =>
      dsimp only at h ⊢
      split at h
      · rename_i hplan
        rw [buildGitIngestPlan_mono hle hplan]
        exact h
      · cases h

/-- The files of a job do not depend on the fuel. -/
theorem jobFiles_unique {fuel fuel' : ℕ} {files files' : List String}
    (h : host.jobFiles fuel route payload isMatch = some files)
    (h' : host.jobFiles fuel' route payload isMatch = some files') : files = files' :=
  Option.some.inj ((jobFiles_mono (le_max_left fuel fuel') h).symm.trans
    (jobFiles_mono (le_max_right fuel fuel') h'))

theorem jobType_ne_embed (hty : entry.jobType = route.jobType) : entry.jobType ≠ .embedDocument := by
  rw [hty]
  cases route <;> exact JobType.noConfusion

/-- A dispatch that works upserts the files of the job, one after the other, and removes the job. -/
theorem run_of_done_dispatch (hty : entry.jobType = route.jobType)
    (hdecode : E.decodeIngestPayload entry.payload = .ok payload)
    (hmatch : E.compilePattern payload.filePattern = .ok isMatch) (hm : m ∈ w.store.models.rows)
    (h : host.Done (dispatchJob E entry m.id) w () w') :
    ∃ fuel files s₁, host.jobFiles fuel route payload isMatch = some files ∧
      Run (IngestsFile E host.view m) w.store files s₁ ∧
      w'.store = { s₁ with jobs := completeJob s₁.jobs entry.id } := by
  obtain ⟨w₁, hprocess, hstore⟩ := done_dispatch h
  rw [hty] at hprocess
  unfold Host.jobFiles
  cases route with
  | ingest =>
    obtain ⟨hdir, hsame⟩ | ⟨hdir, w₂, hs₂, hbody⟩ := done_withIngestRoot hdecode hmatch hm rfl hprocess
    · rw [hdir, ← hsame]
      exact ⟨0, [], w₁.store, rfl, .nil _, hstore⟩
    · rw [hdir, ← hs₂]
      exact ⟨0, host.walkFiles payload.rootPath payload.rootPath isMatch [] false, w₁.store, rfl,
        run_of_done_walk hbody, hstore⟩
  | ingestGit =>
    obtain ⟨hdir, hsame⟩ | ⟨hdir, w₂, hs₂, hbody⟩ := done_withIngestRoot hdecode hmatch hm rfl hprocess
    · rw [hdir, ← hsame]
      exact ⟨0, [], w₁.store, rfl, .nil _, hstore⟩
    · obtain ⟨answer, w₃, hask, h1⟩ := Task.done_bind.1 hbody
      obtain ⟨hans, hsays⟩ := Task.done_ask.1 hask
      obtain rfl := hans.1
      obtain ⟨fuel, hplan⟩ | ⟨hfalse, -⟩ := hsays
      swap
      · exact hfalse.elim
      obtain ⟨plan, w₄, hloaded, h2⟩ := Task.done_bind.1 h1
      obtain ⟨rfl, rfl⟩ := Task.done_ofExcept.1 (done_context.1 hloaded)
      obtain ⟨_, w₅, hrepos, hfallback⟩ := Task.done_bind.1 h2
      refine ⟨fuel, host.planFiles payload.rootPath isMatch plan, w₁.store, ?_, ?_, hstore⟩
      · rw [hdir, hplan]
        rfl
      · rw [← hs₂]
        exact run_of_done_plan hrepos hfallback

/-! ## A link ingested and embedded -/

/-- How a host answers beside a provider and a clock, if no access fails. -/
def Host.reply (host : Host) (o : Outside) (fuel : ℕ) (w : World) : (r : Req) → Option (r.Ans × World)
  | .canonicalize path =>
    match host.canonicalize path with
    | some p => some (.ok p, w)
    | none => some (.error ⟨true, "No such file or directory (os error 2)"⟩, w)
  | .isDir path => some (host.isDir path, w)
  | .walk root => some (host.walk root, w)
  | .gitPlan root =>
    match host.buildGitIngestPlan fuel root with
    | some (.ok plan) => some (.ok plan, w)
    | _ => none
  | .trackedFiles repoRoot =>
    match host.gitListTrackedFiles repoRoot with
    | .ok tracked => some (.ok tracked, w)
    | .error _ => none
  | r => o.reply w r

theorem Host.answers_of_reply {o : Outside} {fuel : ℕ} {r : Req} {out : r.Ans × World}
    (hview : o.view = host.view) (h : host.reply o fuel w r = some out) :
    host.Answers False w r out.1 out.2 := by
  cases r with
  | canonicalize path =>
    dsimp only [reply] at h
    split at h
    · rename_i p hp
      cases h
      exact ⟨rfl, .inl ⟨p, hp, rfl⟩⟩
    · rename_i hnone
      cases h
      exact ⟨rfl, .inr ⟨.inl hnone, _, rfl⟩⟩
  | isDir path =>
    cases h
    exact ⟨rfl, .inl rfl⟩
  | walk root =>
    cases h
    exact ⟨rfl, rfl⟩
  | gitPlan root =>
    dsimp only [reply] at h
    split at h
    · rename_i plan hplan
      cases h
      exact ⟨⟨rfl, fun e he => by cases he⟩, .inl ⟨fuel, hplan⟩⟩
    · cases h
  | trackedFiles repoRoot =>
    dsimp only [reply] at h
    split at h
    · rename_i tracked hlist
      cases h
      exact ⟨⟨rfl, fun e he => by cases he⟩, .inl hlist.symm⟩
    · cases h
  | connect | db | metadata | openFile | readFile | embed | now =>
    refine ⟨?_, trivial⟩
    dsimp only [reply] at h
    rw [← hview]
    exact o.answers_of_reply h

/-- The libraries, with decoders for the payloads of the ingest and of every pair. -/
def syncEnv : Env := { linkEnv with decodeEmbedPayload := sampleDecode }

/-- The rest of the world while the job runs. -/
def syncOutside : Outside := { sampleOutside none 20 with view := linkHost.view }

/-- A server starts, and a worker claims the git job of `/srv`. -/
def syncCalls : List StoreOp :=
  [.reconcile (fun _ => none) sampleModel 0, .activate ⟨1, "m", 1, 4, 0, 0⟩ 0,
    .enqueue .ingestFolderGit (ingestPayloadJson linkPayload) 5, .claim 10]

/-- The git job, as claimed. -/
def syncEntry : JobQueueEntry := ⟨1, .ingestFolderGit, ingestPayloadJson linkPayload, some 10, 5⟩

theorem decode_sync : syncEnv.decodeIngestPayload syncEntry.payload = .ok linkPayload := decode_link

theorem match_sync : syncEnv.compilePattern linkPayload.filePattern = .ok fun _ => true := rfl

theorem files_sync : linkHost.jobFiles 0 .ingestGit linkPayload (fun _ => true) = some ["/etc/passwd"] := by
  decide +kernel

/-- What the job finds: a model and no document. -/
def syncStore (s : Store) : Bool :=
  decide ((⟨1, "m", 1, 4, 0, 0⟩ ∈ s.models.rows ∧ s.jobs.rows = [syncEntry]) ∧
    s.vec.isSome = true ∧ (s.vec.all fun v => v.dimensions = 1) = true ∧ s.documents.rows = [] ∧
    s.embeddings.rows = [])

/-- A dispatch of the git job, run. -/
def playJob (s : Store) : Option World :=
  match (dispatchJob syncEnv syncEntry 1).play (fun _ w r => linkHost.reply syncOutside 0 w r) 0
      ⟨s, [], []⟩ with
  | some (.ok (), w) => some w
  | _ => none

theorem done_of_playJob {s : Store} (h : playJob s = some w) :
    linkHost.Done (dispatchJob syncEnv syncEntry 1) ⟨s, [], []⟩ () w := by
  unfold playJob at h
  split at h
  · rename_i w₁ hplay
    cases h
    refine Proc.runs_play (fun _ w r out hr => ?_) hplay
    exact Host.answers_of_reply rfl hr
  · cases h

theorem mem_syncStore {s : Store} (h : syncStore s = true) : syncEntry ∈ s.jobs.rows := by
  obtain ⟨⟨-, hjobs⟩, -⟩ := of_decide_eq_true h
  rw [hjobs]
  exact List.mem_singleton.2 rfl

theorem drainable_sync {s : Store} (hs : WellFormed s) (h : syncStore s = true) :
    Drainable syncEnv linkHost.view (fun _ => sampleVector) ⟨1, "m", 1, 4, 0, 0⟩
      { s with jobs := completeJob s.jobs syncEntry.id } := by
  obtain ⟨⟨hm, hjobs⟩, -, hdim, hdocuments, hembeddings⟩ := of_decide_eq_true h
  refine ⟨hs.completed _, ⟨hm, by decide, fun _ => rfl, ?_⟩, ?_, ?_, ?_, ?_⟩
  · intro v hv
    rw [show s.vec = some v from hv, Option.all_some] at hdim
    exact of_decide_eq_true hdim
  · intro r hr
    rw [show s.embeddings.rows = [] from hembeddings] at hr
    cases hr
  · intro d hd
    rw [show s.documents.rows = [] from hdocuments] at hd
    cases hd
  · intro k hk
    obtain ⟨hk, hne⟩ := (mem_asked_completeJob (mem_syncStore h)).1 hk
    rw [asked, hjobs] at hk
    exact absurd (List.mem_singleton.1 hk) hne
  · intro p hp
    obtain ⟨r, hr, -⟩ := Store.mem_recoverablePairs.1 hp
    rw [show s.embeddings.rows = [] from hembeddings] at hr
    cases hr

theorem sample_sync : ∃ s w s', Run (StoreStep syncEnv) .empty syncCalls s ∧ syncStore s = true ∧
    linkHost.Done (dispatchJob syncEnv syncEntry 1) ⟨s, [], []⟩ () w ∧
    (∀ d ∈ w.store.documents.rows, IsI64 d.id) ∧
    Run (Tick syncEnv linkHost.view (fun _ => sampleVector) 1) w.store [(30, .ok ())] s' ∧
    (s'.jobs.rows = [] ∧ s'.documents = w.store.documents) ∧
    ∃ w', linkHost.Done (dispatchJob syncEnv syncEntry 1) ⟨s', [], []⟩ () w' := by
  have hplay : ((callStores syncEnv syncCalls .empty).any fun s => syncStore s &&
      (playJob s).any fun w => (w.store.documents.rows.all fun d => decide (d.id = 1)) &&
        (playTick syncEnv syncOutside w.store 30).any fun s' =>
          decide (s'.jobs.rows = [] ∧ s'.documents.rows = w.store.documents.rows ∧
            s'.documents.seq = w.store.documents.seq) && (playJob s').isSome) = true := by
    decide +kernel
  obtain ⟨s, hs, hplay⟩ := (Option.any_eq_true _ _).1 hplay
  obtain ⟨hstore, hplay⟩ := Bool.and_eq_true_iff.1 hplay
  obtain ⟨w, hw, hplay⟩ := (Option.any_eq_true _ _).1 hplay
  obtain ⟨hids, hplay⟩ := Bool.and_eq_true_iff.1 hplay
  obtain ⟨s', hs', hplay⟩ := (Option.any_eq_true _ _).1 hplay
  obtain ⟨hempty, hagain⟩ := Bool.and_eq_true_iff.1 hplay
  obtain ⟨hempty, hrows, hseq⟩ := of_decide_eq_true hempty
  obtain ⟨w', hw'⟩ := Option.isSome_iff_exists.1 hagain
  have htick := @tick_of_playTick syncEnv (fun _ => sampleVector) _ _ _ _ (fun _ _ => rfl) hs'
  refine ⟨s, w, s', run_of_callStores hs, hstore, done_of_playJob hw, fun d hd => ?_,
    .cons htick (.nil s'), ⟨hempty, AutoTable.ext hrows hseq⟩, w', done_of_playJob hw'⟩
  rw [of_decide_eq_true (List.all_eq_true.1 hids d hd)]
  exact ⟨by decide, by decide⟩

/-! ## Synced files -/

/-- The file at the path is embedded as planned from what it holds; or it was recorded before, with
    nothing left to embed, and is as it was. -/
structure SyncedFile (E : Env) (view : View) (vector : EmbeddingModel → Bytes → Vector32) (m : EmbeddingModel)
    (s : Store) (docId : ℤ) (path : String) (s' : Store) : Prop where
  recorded : Recorded E view s' path
  synced : TrueToFile E view vector m docId path s' ∨
    (∃ d ∈ s.documents.rows, d.id = docId ∧ d.filepath = path ∧
        (view path).map E.hash = some d.fileHash) ∧
      (docId, m.id) ∉ s.recoverablePairs ∧ SameFor docId s s'

theorem syncedFile {files : List String} {jobId : ℤ} {rounds : List (ℤ × Except AnyError Unit)}
    {s s₁ s' : Store} (hfiles : FilesIngested E host.view m files s s₁)
    (hdrains : Drainable E host.view vector m { s₁ with jobs := completeJob s₁.jobs jobId })
    (hvec : s.vec.isSome = true)
    (hrounds : Run (Tick E host.view vector modelId) { s₁ with jobs := completeJob s₁.jobs jobId } rounds s')
    (hempty : s'.jobs.rows = []) (hpath : path ∈ files) :
    ∃ docId, SyncedFile E host.view vector m s docId path s' := by
  have hvec₁ : s₁.vec.isSome = true := by
    have hdim := congrArg Option.isSome hfiles.dimensions
    rw [Option.isSome_map, Option.isSome_map] at hdim
    exact hdim.trans hvec
  obtain ⟨d, hd, rfl, hhash⟩ := hfiles.recorded path hpath
  refine ⟨d.id, ?_⟩
  by_cases hrec : (d.id, m.id) ∈ s₁.recoverablePairs
  · have htrue : TrueToFile E host.view vector m d.id d.filepath s' := by
      obtain ⟨hleft, -⟩ | htrue := hdrains.run_underway hvec₁ hrounds (.inl ⟨hrec, d, hd, rfl, rfl⟩)
      · have hasked := (hdrains.run hrounds).1.queued _ hleft
        rw [asked, hempty] at hasked
        cases hasked
      · exact htrue
    refine ⟨?_, .inl htrue⟩
    unfold TrueToFile at htrue
    split at htrue
    · rename_i hnone
      rw [hnone] at hhash
      cases hhash
    · rename_i file hfile
      obtain ⟨⟨d', hd', -, hpath', hhash'⟩, -⟩ := htrue
      exact ⟨d', hd', hpath', by rw [hfile, hhash']; rfl⟩
  · have hall : ∀ r ∈ s₁.embeddings.rows, r.pair = (d.id, m.id) → r.state = .embedded := by
      intro r hr hp
      by_contra hst
      exact hrec (Store.mem_recoverablePairs.2 ⟨r, hr, hp, recoverable_iff.2 hst⟩)
    obtain hold | ⟨-, file, hplanned⟩ := hfiles.documents d hd
    · have hkept := hfiles.kept d hold fun _ => ⟨d, hold, rfl, hhash⟩
      have hrest := hdrains.run_settled hvec₁ hrounds hd hhash hall
      have hsame : SameFor d.id s s' := hkept.trans ⟨hrest.documents, hrest.rows, hrest.vectors⟩
      refine ⟨⟨d, (hsame.documents d rfl).2 hold, rfl, hhash⟩, .inr ⟨⟨d, hold, rfl, rfl, hhash⟩, ?_, hsame⟩⟩
      intro hleft
      obtain ⟨r, hr, hp, hst⟩ := Store.mem_recoverablePairs.1 hleft
      have hr₁ := (hkept.rows r (congrArg Prod.fst hp)).2 hr
      exact hrec (Store.mem_recoverablePairs.2 ⟨r, hr₁, hp, hst⟩)
    · exact absurd hplanned.recoverable hrec

section
variable (hs : WellFormed w.store) (hty : entry.jobType = route.jobType)
  (hdecode : E.decodeIngestPayload entry.payload = .ok payload)
  (hmatch : E.compilePattern payload.filePattern = .ok isMatch) (hm : m ∈ w.store.models.rows)
include hs hty hdecode hmatch hm

/-- With every file recorded, a dispatch removes the job and does nothing else. -/
theorem done_idle (h : host.Done (dispatchJob E entry m.id) w () w')
    (hrec : ∀ fuel files, host.jobFiles fuel route payload isMatch = some files →
      ∀ p ∈ files, Recorded E host.view w.store p) :
    w'.store = { w.store with jobs := completeJob w.store.jobs entry.id } := by
  obtain ⟨fuel, files, s₁, hfiles, hrun, hstore⟩ := run_of_done_dispatch hty hdecode hmatch hm h
  rw [hstore, idle_of_recorded hrun hs (hrec fuel files hfiles)]

theorem done_recorded (h : host.Done (dispatchJob E entry m.id) w () w') {fuel : ℕ} {files : List String}
    (hfiles : host.jobFiles fuel route payload isMatch = some files) :
    ∀ p ∈ files, Recorded E host.view w'.store p := by
  obtain ⟨fuel', files', s₁, hfiles', hrun, hstore⟩ := run_of_done_dispatch hty hdecode hmatch hm h
  rw [jobFiles_unique hfiles hfiles', hstore]
  exact (filesIngested_run hrun hs).recorded

/-- **An ingest job**: after a dispatch that works every file of the job is recorded, those that were not
    recorded as they are now are planned and nothing of them is embedded, every other document is as it
    was, and the job is gone. -/
theorem job_ingested (hentry : entry ∈ w.store.jobs.rows) (h : host.Done (dispatchJob E entry m.id) w () w') :
    (∃ fuel files, host.jobFiles fuel route payload isMatch = some files) ∧
      (∀ fuel files, host.jobFiles fuel route payload isMatch = some files →
        FilesIngested E host.view m files { w.store with jobs := completeJob w.store.jobs entry.id }
          w'.store) ∧
      ∀ e ∈ w'.store.jobs.rows, e.id ≠ entry.id := by
  obtain ⟨fuel, files, s₁, hfiles, hrun, hstore⟩ := run_of_done_dispatch hty hdecode hmatch hm h
  refine ⟨⟨fuel, files, hfiles⟩, fun fuel' files' hfiles' => ?_, fun e he => ?_⟩
  · rw [jobFiles_unique hfiles' hfiles, hstore]
    exact (filesIngested_run hrun hs).completed hentry (jobType_ne_embed hty)
  · rw [hstore] at he
    exact (mem_completeJob.1 he).2

omit hs hty hdecode hmatch hm in
/-- The link of `/srv` to a file: that file is planned. -/
theorem sample_job_ingested : ∃ s w, Run (StoreStep syncEnv) .empty syncCalls s ∧
    linkHost.Done (dispatchJob syncEnv syncEntry 1) ⟨s, [], []⟩ () w ∧
    FilesIngested syncEnv linkHost.view ⟨1, "m", 1, 4, 0, 0⟩ ["/etc/passwd"]
      { s with jobs := completeJob s.jobs 1 } w.store ∧ ∀ e ∈ w.store.jobs.rows, e.id ≠ 1 := by
  obtain ⟨s, w, s', hrun, hstore, hdone, -⟩ := sample_sync
  obtain ⟨⟨hm, -⟩, -⟩ := of_decide_eq_true hstore
  have hty : syncEntry.jobType = IngestRoute.ingestGit.jobType := rfl
  obtain ⟨-, hfiles, hgone⟩ := job_ingested (w := ⟨s, [], []⟩) (wellFormed_run hrun) hty decode_sync
    match_sync hm (mem_syncStore hstore) hdone
  exact ⟨s, w, hrun, hdone, hfiles 0 _ files_sync, hgone⟩

/-- **Ingesting again does nothing**: a dispatch changes nothing but the queue exactly when every file of
    its job is recorded, and then it removes its job and nothing else; so once a job has worked, a later
    one for the same files only leaves the queue, whatever else has happened to the store, as long as the
    documents are the same. -/
theorem reingest_idle (h : host.Done (dispatchJob E entry m.id) w () w') :
    ((∃ q, w'.store = { w.store with jobs := q }) ↔
      ∀ fuel files, host.jobFiles fuel route payload isMatch = some files →
        ∀ p ∈ files, Recorded E host.view w.store p) ∧
    (∀ q, w'.store = { w.store with jobs := q } → q = completeJob w.store.jobs entry.id) ∧
    ∀ entry₂ w₂ w₃, entry₂.jobType = route.jobType → E.decodeIngestPayload entry₂.payload = .ok payload →
      WellFormed w₂.store → m ∈ w₂.store.models.rows → w₂.store.documents = w'.store.documents →
        host.Done (dispatchJob E entry₂ m.id) w₂ () w₃ →
          w₃.store = { w₂.store with jobs := completeJob w₂.store.jobs entry₂.id } := by
  have hrecorded : ∀ q, w'.store = { w.store with jobs := q } → ∀ fuel files,
      host.jobFiles fuel route payload isMatch = some files →
        ∀ p ∈ files, Recorded E host.view w.store p := by
    intro q hidle fuel files hfiles p hp
    obtain ⟨d, hd, hpath, hhash⟩ := done_recorded hs hty hdecode hmatch hm h hfiles p hp
    rw [hidle] at hd
    exact ⟨d, hd, hpath, hhash⟩
  refine ⟨⟨?_, fun hrec => ⟨_, done_idle hs hty hdecode hmatch hm h hrec⟩⟩, fun q hidle => ?_, ?_⟩
  · rintro ⟨q, hidle⟩
    exact hrecorded q hidle
  · have hremoved := done_idle hs hty hdecode hmatch hm h (hrecorded q hidle)
    exact congrArg Store.jobs (hidle.symm.trans hremoved)
  · intro entry₂ w₂ w₃ hty₂ hdecode₂ hs₂ hm₂ hdocuments h₂
    refine done_idle hs₂ hty₂ hdecode₂ hmatch hm₂ h₂ fun fuel files hfiles p hp => ?_
    obtain ⟨d, hd, hpath, hhash⟩ := done_recorded hs hty hdecode hmatch hm h hfiles p hp
    exact ⟨d, hdocuments ▸ hd, hpath, hhash⟩

omit hs hty hdecode hmatch hm in
/-- The same job after its file was embedded. -/
theorem sample_reingest_idle : ∃ (s : Store) (w : World) (s' : Store) (w' : World),
    linkHost.Done (dispatchJob syncEnv syncEntry 1) ⟨s, [], []⟩ () w ∧
    Run (Tick syncEnv linkHost.view (fun _ => sampleVector) 1) w.store [(30, .ok ())] s' ∧
    linkHost.Done (dispatchJob syncEnv syncEntry 1) ⟨s', [], []⟩ () w' ∧
    w'.store = { s' with jobs := completeJob s'.jobs 1 } := by
  obtain ⟨s, w, s', hrun, hstore, hdone, hids, hrounds, ⟨-, hdocuments⟩, w', hagain⟩ := sample_sync
  obtain ⟨⟨hm, -⟩, -⟩ := of_decide_eq_true hstore
  have hs := wellFormed_run hrun
  have hty : syncEntry.jobType = IngestRoute.ingestGit.jobType := rfl
  obtain ⟨fuel, files, s₁, -, hfiles, hw⟩ :=
    run_of_done_dispatch (w := ⟨s, [], []⟩) hty decode_sync match_sync hm hdone
  have hdrains : Drainable syncEnv linkHost.view (fun _ => sampleVector) ⟨1, "m", 1, 4, 0, 0⟩ w.store := by
    rw [hw] at hids ⊢
    exact drainable_run (mem_syncStore hstore) JobType.noConfusion hfiles hs sampleDecode_decodesMembers hids
      ⟨by decide, by decide⟩ (drainable_sync hs hstore)
  have hend := (hdrains.run hrounds).1
  obtain ⟨-, -, hidle⟩ := reingest_idle (w := ⟨s, [], []⟩) hs hty decode_sync match_sync hm hdone
  exact ⟨s, w, s', w', hdone, hrounds, hagain,
    hidle syncEntry ⟨s', [], []⟩ w' hty decode_sync hend.wellFormed hend.fits.mem hdocuments hagain⟩

/-- **A folder is synced**: when the rounds after an ingest job have emptied the queue, each file of the
    job is recorded and embedded as planned from what it holds, or was recorded already with nothing
    left to embed and is as it was; and the job, dispatched again, does nothing. -/
theorem folder_synced {rounds : List (ℤ × Except AnyError Unit)} {s' : Store}
    (hdrains : Drainable E host.view vector m { w.store with jobs := completeJob w.store.jobs entry.id })
    (hvec : w.store.vec.isSome = true) (hembed : DecodesMembers E.decodeEmbedPayload) (hmodel : IsI64 m.id)
    (hentry : entry ∈ w.store.jobs.rows) (h : host.Done (dispatchJob E entry m.id) w () w')
    (hids : ∀ d ∈ w'.store.documents.rows, IsI64 d.id)
    (hrounds : Run (Tick E host.view vector modelId) w'.store rounds s') (hempty : s'.jobs.rows = []) :
    (∀ round ∈ rounds, round.2 = .ok ()) ∧
    (∀ fuel files, host.jobFiles fuel route payload isMatch = some files →
      ∀ p ∈ files, ∃ docId, SyncedFile E host.view vector m w.store docId p s') ∧
    ∀ entry₂ w₃, entry₂.jobType = route.jobType → E.decodeIngestPayload entry₂.payload = .ok payload →
      host.Done (dispatchJob E entry₂ m.id) ⟨s', [], []⟩ () w₃ →
        w₃.store = { s' with jobs := completeJob s'.jobs entry₂.id } := by
  obtain ⟨fuel, files, s₁, hfiles, hrun, hstore⟩ := run_of_done_dispatch hty hdecode hmatch hm h
  have hjob := jobType_ne_embed hty
  rw [hstore] at hrounds hids
  have hdrains' := drainable_run hentry hjob hrun hs hembed hids hmodel hdrains
  have hsynced : ∀ p ∈ files, ∃ docId, SyncedFile E host.view vector m w.store docId p s' :=
    fun p hp => syncedFile (filesIngested_run hrun hs) hdrains' hvec hrounds hempty hp
  have hend := (hdrains'.run hrounds).1
  refine ⟨hdrains'.all_ok hrounds, fun fuel' files' hfiles' => ?_, fun entry₂ w₃ hty₂ hdecode₂ h₂ => ?_⟩
  · rw [jobFiles_unique hfiles' hfiles]
    exact hsynced
  · refine done_idle hend.wellFormed hty₂ hdecode₂ hmatch hend.fits.mem h₂ fun fuel' files' hfiles' p hp => ?_
    rw [jobFiles_unique hfiles' hfiles] at hp
    obtain ⟨docId, hfile⟩ := hsynced p hp
    exact hfile.recorded

omit hs hty hdecode hmatch hm in
/-- The file behind the link, after one round; the job finds nothing to do then. -/
theorem sample_folder_synced : ∃ (s : Store) (w : World) (s' : Store) (w' : World),
    linkHost.Done (dispatchJob syncEnv syncEntry 1) ⟨s, [], []⟩ () w ∧
    Run (Tick syncEnv linkHost.view (fun _ => sampleVector) 1) w.store [(30, .ok ())] s' ∧
    (∃ docId, SyncedFile syncEnv linkHost.view (fun _ => sampleVector) ⟨1, "m", 1, 4, 0, 0⟩ s docId
      "/etc/passwd" s') ∧
    linkHost.Done (dispatchJob syncEnv syncEntry 1) ⟨s', [], []⟩ () w' ∧
    w'.store = { s' with jobs := completeJob s'.jobs 1 } := by
  obtain ⟨s, w, s', hrun, hstore, hdone, hids, hrounds, ⟨hempty, -⟩, w', hagain⟩ := sample_sync
  obtain ⟨⟨hm, -⟩, hvec, -⟩ := of_decide_eq_true hstore
  have hs := wellFormed_run hrun
  have hty : syncEntry.jobType = IngestRoute.ingestGit.jobType := rfl
  obtain ⟨-, hsynced, hidle⟩ := folder_synced (w := ⟨s, [], []⟩) hs hty decode_sync match_sync hm
    (drainable_sync hs hstore) hvec sampleDecode_decodesMembers ⟨by decide, by decide⟩ (mem_syncStore hstore) hdone
    hids
    hrounds hempty
  exact ⟨s, w, s', w', hdone, hrounds, hsynced 0 _ files_sync _ (List.mem_singleton.2 rfl), hagain,
    hidle syncEntry w' hty decode_sync hagain⟩

end

end Ask

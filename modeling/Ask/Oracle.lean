/-
  One way the outside may answer: a fixed file system, provider and clock over
  the real database.  The programs can be run on it.
-/
import Ask.Worker

namespace Ask

open Lib Lib.OsStr

/-- A file system whose walks find the given files, a provider and a clock. -/
structure Outside where
  view : View
  walk : String → List String
  embed : EmbeddingModel → List Bytes → List Vector32
  time : ℤ

namespace Outside

variable (o : Outside)

/-- A database access that works. -/
def runDb (w : World) (op : DbReq) : Option (Except AnyError op.Val × World) :=
  match (op.run w.store).result with
  | .ok v =>
    some (.ok v, { w with store := (op.run w.store).state, planned := op.planned v ++ w.planned })
  | .error _ => none

/-- The answer of the outside, if no database access fails. -/
def reply (w : World) : (r : Req) → Option (r.Ans × World)
  | .connect => some (.ok (), w)
  | .db op => runDb w op
  | .metadata path =>
    match o.view path with
    | some file => some (.ok ⟨true, file.length, some o.time⟩, w)
    | none => some (.error ⟨true, "No such file or directory (os error 2)"⟩, w)
  | .openFile path =>
    match o.view path with
    | some _ => some (.ok (), w)
    | none => some (.error ⟨true, "No such file or directory (os error 2)"⟩, w)
  | .readFile path =>
    match o.view path with
    | some file => some (.ok file, w)
    | none => some (.error ⟨true, "No such file or directory (os error 2)"⟩, w)
  | .isDir root => some (!(o.walk root).isEmpty, w)
  | .canonicalize path => some (.ok path, w)
  | .walk root => some ((o.walk root).map fun path => .ok ⟨path, some true⟩, w)
  | .gitPlan root => some (.ok ⟨[], some root, []⟩, w)
  | .trackedFiles _ => some (.ok [], w)
  | .embed model inputs =>
    some (.ok (o.embed model inputs),
      { w with calls := ⟨o.view, model, inputs, o.embed model inputs⟩ :: w.calls })
  | .now => some (o.time, w)

theorem ok_of_runDb {w : World} {op : DbReq} {out : Except AnyError op.Val × World}
    (h : runDb w op = some out) :
    ∃ v store, out.1 = .ok v ∧ op.run.Ok w.store v store ∧
      out.2 = { w with store := store, planned := op.planned v ++ w.planned } := by
  unfold runDb at h
  split at h
  · rename_i v hv
    cases h
    exact ⟨v, _, rfl, ⟨hv, rfl⟩, rfl⟩
  · cases h

/-- These are answers without a failure. -/
theorem answers_of_reply {w : World} {r : Req} {out : r.Ans × World} (h : o.reply w r = some out) :
    Answers o.view False w r out.1 out.2 := by
  cases r with
  | db op => exact .inl (ok_of_runDb h)
  | connect => cases h; exact ⟨rfl, .inl rfl⟩
  | metadata path =>
    unfold reply at h
    dsimp only at h
    split at h
    · rename_i file hf
      cases h
      exact ⟨rfl, .inl ⟨file, _, hf, rfl, rfl, rfl⟩⟩
    · rename_i hf
      cases h
      exact ⟨rfl, .inr (.inl ⟨hf, .inr ⟨_, rfl, rfl⟩⟩)⟩
  | openFile path =>
    unfold reply at h
    dsimp only at h
    split at h
    · rename_i file hf
      cases h
      exact ⟨rfl, .inl ⟨file, hf, rfl⟩⟩
    · rename_i hf
      cases h
      exact ⟨rfl, .inr ⟨.inl hf, _, rfl⟩⟩
  | readFile path =>
    unfold reply at h
    dsimp only at h
    split at h
    · rename_i file hf
      cases h
      exact ⟨rfl, .inl ⟨file, hf, rfl⟩⟩
    · rename_i hf
      cases h
      exact ⟨rfl, .inr ⟨.inl hf, _, rfl⟩⟩
  | gitPlan => cases h; exact ⟨rfl, fun e he => by cases he⟩
  | trackedFiles => cases h; exact ⟨rfl, fun e he => by cases he⟩
  | embed model inputs => cases h; exact .inl ⟨_, rfl, rfl⟩
  | isDir | canonicalize | walk | now => cases h; rfl

end Outside

/-! ## A setting to run in -/

/-- The hashes of the four files below. -/
def sampleHashes : List (Bytes × String) :=
  [([0x61], "ca978112ca1bbdcafac231b39a23dc4da786eff8147c4e72b9807785afee48bb"),
    ([0x62], "3e23e8160039594a33894f6564e1b1348bbd7a0088d42c4acb73eeaed59c009d"),
    ([0x61, 0x62, 0x63, 0x64], "88d4266fd4e6338d13b845fcf289579d209c897823b9217da3e161936f031589"),
    ([0x61, 0x62, 0x63, 0x64, 0x65, 0x66, 0x67, 0x68],
      "9c56cc51b374c3ba189210d5b6d4bf57790d351c96c47c02190ecf1e430635ab")]

/-- Two of these files. -/
def fourBytes : Bytes := [0x61, 0x62, 0x63, 0x64]

/-- A file of eight letters. -/
def eightBytes : Bytes := [0x61, 0x62, 0x63, 0x64, 0x65, 0x66, 0x67, 0x68]

/-- The pairs whose payloads are decoded. -/
def samplePairs : List Pair := [(1, 1), (1, 2)]

/-- The payload of an ingest job. -/
def sampleIngest : String := "\x7b\"root_path\":\"/r\",\"file_pattern\":\"\"\x7d"

/-- The libraries on a few inputs: any file matches, payloads are those the server writes. -/
def sampleEnv : Env where
  f64 := .exact
  hash file := ((sampleHashes.lookup file).getD "")
  compilePattern _ := .ok fun _ => true
  decodeEmbedPayload text :=
    match samplePairs.find? fun p => embedPayloadJson p = text with
    | some p => .ok ⟨p.1, p.2⟩
    | none => .error (.msg "expected value at line 1 column 1")
  decodeIngestPayload text :=
    if text = sampleIngest then .ok ⟨"/r", ""⟩
    else .error (.msg "expected value at line 1 column 1")

/-- A one-dimensional vector that tells the inputs below apart: the sum of the bytes. -/
def sampleVector (input : Bytes) : Vector32 := [input.foldl (fun n b => n + b.toUInt32) 0]

/-- One file, `/r/f`, and a provider of one-dimensional vectors. -/
def sampleOutside (file : Option Bytes) (time : ℤ) : Outside where
  view path := if path = "/r/f" then file else none
  walk _ := ["/r/f"]
  embed _ inputs := inputs.map sampleVector
  time := time

theorem mem_sampleHashes {file : Bytes} {h : String} (hh : sampleEnv.hash file = h) (hne : h ≠ "") :
    (file, h) ∈ sampleHashes := by
  change (sampleHashes.lookup file).getD "" = h at hh
  cases hl : sampleHashes.lookup file with
  | none => rw [hl] at hh; exact absurd hh.symm hne
  | some h' =>
    rw [hl] at hh
    obtain ⟨l₁, l₂, he, -⟩ := List.lookup_eq_some_iff.1 hl
    obtain rfl : h' = h := hh
    rw [he]
    exact List.mem_append_right _ List.mem_cons_self

/-- Only the four files have their hashes. -/
theorem eq_of_sampleHash {file file' : Bytes} (hmem : file' ∈ sampleHashes.map Prod.fst)
    (h : sampleEnv.hash file = sampleEnv.hash file') : file = file' := by
  have hlist : ∀ f ∈ sampleHashes.map Prod.fst,
      (f, sampleEnv.hash f) ∈ sampleHashes ∧ sampleEnv.hash f ≠ "" := by decide
  have hinj : ∀ x ∈ sampleHashes, ∀ y ∈ sampleHashes, x.2 = y.2 → x.1 = y.1 := by decide
  exact hinj _ (mem_sampleHashes h (hlist file' hmem).2) _ (hlist file' hmem).1 rfl

/-- A model with chunks of four bytes and vectors of one number. -/
def sampleModel : EmbeddingIdentity := ⟨"m", 1, 4, 0⟩

/-- Another model, of the same dimension. -/
def otherModel : EmbeddingIdentity := ⟨"n", 1, 4, 0⟩

/-- A document for `/r/f`, as it was when it held `a`. -/
def sampleDocument : Document :=
  ⟨0, "/r/f", "", .resource, 0, 1, sampleEnv.hash [0x61], "\x7b\x7d", 0⟩

/-- The model and the document, whose job a worker has claimed. -/
def sampleStore : Store :=
  let program : Db Unit := do
    let _ ← insertModel sampleModel 0
    let _ ← upsertDocumentAndReplacePendingEmbeddings sampleDocument 1
      [(.filename, 0, 0), (.content, 0, 1)] 0
    Tx.exec fun s => .ok ((), { s with jobs := (claimJob s.jobs 10).2 })
  (program Store.empty).state

/-- The embed job of document 1, as claimed. -/
def sampleEntry : JobQueueEntry := ⟨1, .embedDocument, embedPayloadJson (1, 1), some 10, 0⟩

example : sampleStore.jobs.rows = [sampleEntry] := by decide +kernel

end Ask

import EraseCure.EvidenceIntegrity

/-!
# Hashing a file in pieces

A digest is taken of a buffer at once, or of a file as the pieces of it are
read. Each call of the digest library may fail. Where none does, and bytes that
are handed over in two pieces count as their concatenation, the pieces do not
matter, and a read error is reported wherever it occurs.
-/

set_option autoImplicit false

namespace EraseCure.StreamedHashes
open EraseCure.ErrorCodes EraseCure.FileSystems EraseCure.Hashing
open EraseCure.EvidenceIntegrity (FileHashing)

/-- The calls of the digest library for one kind of digest. -/
structure EvpMd (Ctx : Type) (len : ℕ) where
  ctxNew : Option Ctx
  digestInit : Ctx → Option Ctx
  digestUpdate : Ctx → Bytes → Option Ctx
  digestFinal : Ctx → Option (Vector UInt8 len)

def bufSize : ℕ := 65536

/-- What the `fread` calls return until one returns nothing, and whether the
stream has its error flag set then. -/
structure FileReads (content : Bytes) where
  chunks : List Bytes
  failed : Bool
  sizes : ∀ chunk ∈ chunks, 0 < chunk.length ∧ chunk.length ≤ bufSize
  read : chunks.flatten <+: content
  complete : failed = false → chunks.flatten = content

section Digests
variable {Ctx : Type} {len : ℕ} (md : EvpMd Ctx len)

def evpHashBuffer (data : Bytes) : Except ErasecureError (Vector UInt8 len) :=
  match md.ctxNew with
  | none => .error .crypto
  | some ctx =>
    match (md.digestInit ctx).bind (fun c => (md.digestUpdate c data).bind md.digestFinal) with
    | none => .error .hashFailed
    | some digest => .ok digest

def updateChunks : List Bytes → Ctx → Option Ctx
  | [], c => some c
  | chunk::rest, c => (md.digestUpdate c chunk).bind (updateChunks rest)

/-- A file that cannot be opened has no reads. -/
def evpHashFile {content : Bytes} (file : Option (FileReads content)) :
    Except ErasecureError (Vector UInt8 len) :=
  match file with
  | none => .error .openFailed
  | some reads =>
    match md.ctxNew with
    | none => .error .crypto
    | some ctx =>
      match (md.digestInit ctx).bind (updateChunks md reads.chunks) with
      | none => .error .hashFailed
      | some c =>
        if reads.failed then .error .readFailed
        else
          match md.digestFinal c with
          | none => .error .hashFailed
          | some digest => .ok digest

/-- All calls succeed, no bytes change nothing, and two pieces count as one. -/
structure Streams : Prop where
  created : md.ctxNew.isSome
  inits : ∀ c, (md.digestInit c).isSome
  updates : ∀ c data, (md.digestUpdate c data).isSome
  finals : ∀ c, (md.digestFinal c).isSome
  nothing : ∀ c, md.digestUpdate c [] = some c
  pieces : ∀ c a b,
    (md.digestUpdate c a).bind (fun c => md.digestUpdate c b) = md.digestUpdate c (a++b)

variable (h : Streams md)
include h

theorem chunks_whole (chunks : List Bytes) (c : Ctx) :
    updateChunks md chunks c = md.digestUpdate c chunks.flatten := by
  induction chunks generalizing c with
  | nil => exact (h.nothing c).symm
  | cons chunk rest ih =>
    rw [updateChunks, List.flatten_cons, ← h.pieces]
    congr 1
    funext c'
    exact ih c'

/-- The context that a run of calls leaves before the last one. -/
theorem hashed_context (data : Bytes) : ∃ ctx c₀ c digest, md.ctxNew = some ctx ∧
    md.digestInit ctx = some c₀ ∧ md.digestUpdate c₀ data = some c ∧
    md.digestFinal c = some digest := by
  obtain ⟨ctx, hctx⟩ := Option.isSome_iff_exists.mp h.created
  obtain ⟨c₀, hc₀⟩ := Option.isSome_iff_exists.mp (h.inits ctx)
  obtain ⟨c, hc⟩ := Option.isSome_iff_exists.mp (h.updates c₀ data)
  obtain ⟨digest, hdigest⟩ := Option.isSome_iff_exists.mp (h.finals c)
  exact ⟨ctx, c₀, c, digest, hctx, hc₀, hc, hdigest⟩

theorem buffer_hashed (data : Bytes) : ∃ digest, evpHashBuffer md data = .ok digest := by
  obtain ⟨ctx, c₀, c, digest, hctx, hc₀, hc, hdigest⟩ := hashed_context md h data
  refine ⟨digest, ?_⟩
  simp only [evpHashBuffer, hctx, hc₀, hc, hdigest, Option.bind_some]

variable {content : Bytes} (reads : FileReads content)

theorem file_hashed (hr : reads.failed = false) :
    evpHashFile md (some reads) = evpHashBuffer md content := by
  obtain ⟨ctx, c₀, c, digest, hctx, hc₀, hc, hdigest⟩ := hashed_context md h content
  have hloop : updateChunks md reads.chunks c₀ = some c := by
    rw [chunks_whole md h, reads.complete hr, hc]
  simp only [evpHashFile, evpHashBuffer, hctx, hc₀, hloop, hc, hdigest, hr, Option.bind_some,
    Bool.false_eq_true, if_false]

theorem file_unread (hr : reads.failed = true) :
    evpHashFile md (some reads) = .error .readFailed := by
  obtain ⟨ctx, c₀, c, digest, hctx, hc₀, hc, hdigest⟩ :=
    hashed_context md h reads.chunks.flatten
  have hloop : updateChunks md reads.chunks c₀ = some c := by rw [chunks_whole md h, hc]
  simp only [evpHashFile, hctx, hc₀, hloop, hr, Option.bind_some, if_true]

end Digests

structure Evp (Ctx : Type) where
  sha256 : EvpMd Ctx 32
  sha512 : EvpMd Ctx 64

section Hashes
variable {Ctx : Type} (evp : Evp Ctx)

def hashSha256Buffer (data : Bytes) : Except ErasecureError (Vector UInt8 32) :=
  evpHashBuffer evp.sha256 data

def hashSha512Buffer (data : Bytes) : Except ErasecureError (Vector UInt8 64) :=
  evpHashBuffer evp.sha512 data

def hashSha256File {content : Bytes} (file : Option (FileReads content)) :
    Except ErasecureError (Vector UInt8 32) :=
  evpHashFile evp.sha256 file

def hashSha512File {content : Bytes} (file : Option (FileReads content)) :
    Except ErasecureError (Vector UInt8 64) :=
  evpHashFile evp.sha512 file

/-- How far the hashing of a file gets when the digest library does not fail. -/
def hashing {content : Bytes} : Option (FileReads content) → FileHashing
  | none => .notOpened
  | some reads => if reads.failed then .readFailed else .hashed content

/-- The loop does what the checks of an image take the hashing of its file for. -/
theorem hashing_refines (h : Streams evp.sha256) (sha256 : Bytes → Digest)
    (hs : ∀ data, hashSha256Buffer evp data = .ok (sha256 data)) {content : Bytes}
    (file : Option (FileReads content)) :
    hashSha256File evp file = EvidenceIntegrity.hashSha256File sha256 (hashing file) := by
  cases file with
  | none => rfl
  | some reads =>
    cases hr : reads.failed with
    | false =>
      rw [hashing, hr, hashSha256File, file_hashed evp.sha256 h reads hr]
      exact hs content
    | true =>
      rw [hashing, hr, hashSha256File, file_unread evp.sha256 h reads hr]
      rfl

/-- Whatever the sizes of the reads, a file that is read to its end has the
digest of a buffer with its content, and any read error is reported. -/
theorem file_digest_streamed (h256 : Streams evp.sha256) (h512 : Streams evp.sha512)
    (content : Bytes) (reads : FileReads content) :
    (reads.failed = false →
      (∃ digest, hashSha256File evp (some reads) = .ok digest ∧
        hashSha256Buffer evp content = .ok digest) ∧
      ∃ digest, hashSha512File evp (some reads) = .ok digest ∧
        hashSha512Buffer evp content = .ok digest) ∧
    (reads.failed = true → hashSha256File evp (some reads) = .error .readFailed ∧
      hashSha512File evp (some reads) = .error .readFailed) := by
  refine ⟨fun hr => ⟨?_, ?_⟩, fun hr => ⟨?_, ?_⟩⟩
  · obtain ⟨digest, hd⟩ := buffer_hashed evp.sha256 h256 content
    exact ⟨digest, (file_hashed evp.sha256 h256 reads hr).trans hd, hd⟩
  · obtain ⟨digest, hd⟩ := buffer_hashed evp.sha512 h512 content
    exact ⟨digest, (file_hashed evp.sha512 h512 reads hr).trans hd, hd⟩
  · exact file_unread evp.sha256 h256 reads hr
  · exact file_unread evp.sha512 h512 reads hr

end Hashes

def keepsBytes {len : ℕ} (known : Bytes) (digest : Vector UInt8 len) : EvpMd Bytes len where
  ctxNew := some []
  digestInit := fun _ => some []
  digestUpdate := fun c data => some (c++data)
  digestFinal := fun c => some (if c = known then digest else Vector.replicate len 0)

theorem keepsBytes_streams {len : ℕ} (known : Bytes) (digest : Vector UInt8 len) :
    Streams (keepsBytes known digest) where
  created := rfl
  inits := fun _ => rfl
  updates := fun _ _ => rfl
  finals := fun _ => rfl
  nothing := fun c => congrArg some (List.append_nil c)
  pieces := fun c a b => congrArg some (List.append_assoc c a b)

def abc : Bytes := [0x61, 0x62, 0x63]

def abcEvp : Evp Bytes where
  sha256 := keepsBytes abc #v[
    0xba, 0x78, 0x16, 0xbf, 0x8f, 0x01, 0xcf, 0xea, 0x41, 0x41, 0x40, 0xde, 0x5d, 0xae, 0x22, 0x23,
    0xb0, 0x03, 0x61, 0xa3, 0x96, 0x17, 0x7a, 0x9c, 0xb4, 0x10, 0xff, 0x61, 0xf2, 0x00, 0x15, 0xad]
  sha512 := keepsBytes abc #v[
    0xdd, 0xaf, 0x35, 0xa1, 0x93, 0x61, 0x7a, 0xba, 0xcc, 0x41, 0x73, 0x49, 0xae, 0x20, 0x41, 0x31,
    0x12, 0xe6, 0xfa, 0x4e, 0x89, 0xa9, 0x7e, 0xa2, 0x0a, 0x9e, 0xee, 0xe6, 0x4b, 0x55, 0xd3, 0x9a,
    0x21, 0x92, 0x99, 0x2a, 0x27, 0x4f, 0xc1, 0xa8, 0x36, 0xba, 0x3c, 0x23, 0xa3, 0xfe, 0xeb, 0xbd,
    0x45, 0x4d, 0x44, 0x23, 0x64, 0x3c, 0xe8, 0x0e, 0x2a, 0x9a, 0xc9, 0x4f, 0xa5, 0x4c, 0xa4, 0x9f]

def abcReads : FileReads abc where
  chunks := [[0x61], [0x62, 0x63]]
  failed := false
  sizes := by decide
  read := by decide
  complete := fun _ => rfl

theorem file_digest_streamed_abc : abcReads.failed = false ∧
    ∃ digest, hashSha256File abcEvp (some abcReads) = .ok digest ∧
      hashSha256Buffer abcEvp abc = .ok digest :=
  ⟨rfl, ((file_digest_streamed abcEvp (keepsBytes_streams abc _) (keepsBytes_streams abc _) abc
    abcReads).1 rfl).1⟩

end EraseCure.StreamedHashes

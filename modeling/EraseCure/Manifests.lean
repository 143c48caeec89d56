import EraseCure.AuditLog

/-!
# The manifest of recovered files

Each recovered file becomes one line of a manifest, an object with its identity,
its digest and where it was found.
-/

set_option autoImplicit false

namespace EraseCure.Manifests
open EraseCure.CText EraseCure.ErrorCodes EraseCure.TextSearch EraseCure.AuditLog

structure RecoveredFileMetadata where
  uuid : CString 37
  fileType : CString 32
  sizeBytes : UInt64
  sha256 : CString 65
  confidence : UInt32
  startBlock : UInt64
  blockCount : UInt64
  outputPath : CString 512
  deriving DecidableEq

inductive MetadataField where
  | uuid | fileType | sizeBytes | sha256 | confidence | startBlock | blockCount | outputPath
  deriving DecidableEq

def manifestOrder : List MetadataField :=
  [.uuid, .fileType, .sizeBytes, .sha256, .confidence, .startBlock, .blockCount, .outputPath]

def manifestLabel : MetadataField → Text
  | .uuid => "\x7b\"uuid\":\"".toList
  | .fileType => "\",\"file_type\":\"".toList
  | .sizeBytes => "\",\"size_bytes\":".toList
  | .sha256 => ",\"sha256\":\"".toList
  | .confidence => "\",\"confidence\":".toList
  | .startBlock => ",\"start_block\":".toList
  | .blockCount => ",\"block_count\":".toList
  | .outputPath => ",\"output_path\":\"".toList

def manifestEnd : Text := "\"\x7d".toList

def manifestText (r : RecoveredFileMetadata) : MetadataField → Text
  | .uuid => r.uuid.chars
  | .fileType => r.fileType.chars
  | .sizeBytes => decimal r.sizeBytes.toNat
  | .sha256 => r.sha256.chars
  | .confidence => decimal r.confidence.toNat
  | .startBlock => decimal r.startBlock.toNat
  | .blockCount => decimal r.blockCount.toNat
  | .outputPath => r.outputPath.chars

def manifestLine (r : RecoveredFileMetadata) : Text :=
  spell manifestLabel (manifestText r) manifestOrder++manifestEnd

/-- `recovery_output_write_manifest` on the contents of the manifest. What `fprintf`
returns is not looked at. -/
def recoveryOutputWriteManifest (io : AppendIo) (manifest : Text) (r : RecoveredFileMetadata) :
    Text × ErasecureError :=
  match io with
  | .openFailed => (manifest, .io)
  | .printFailed kept => (manifest++(manifestLine r++['\n']).take kept, .ok)
  | .done => (manifest++(manifestLine r++['\n']), .ok)

end EraseCure.Manifests

import EraseCure.CText
import EraseCure.ErrorCodes

/-!
# SHA-256 of a buffer

The digest is a parameter. Its context may fail to be created and each of its
steps may fail; a digest that is produced depends on the buffer only.
-/

set_option autoImplicit false

namespace EraseCure.Hashing
open EraseCure.CText EraseCure.ErrorCodes

abbrev Digest := Vector UInt8 32

inductive EvpFailure where
  | noContext
  | digestFailed
  deriving DecidableEq

abbrev Evp := Text → Except EvpFailure Digest

def hashSha256Buffer (evp : Evp) (data : Text) : Except ErasecureError Digest :=
  match evp data with
  | .ok d => .ok d
  | .error .noContext => .error .crypto
  | .error .digestFailed => .error .hashFailed

theorem hash_ok (evp : Evp) (data : Text) (d : Digest) :
    hashSha256Buffer evp data = .ok d ↔ evp data = .ok d := by
  unfold hashSha256Buffer
  split <;> simp_all

theorem hash_error (evp : Evp) (data : Text) (e : ErasecureError)
    (h : hashSha256Buffer evp data = .error e) : e ≠ .ok := by
  unfold hashSha256Buffer at h
  split at h
  · contradiction
  all_goals
    obtain rfl := Except.error.inj h
    decide

/-- A digest known on finitely many texts. -/
def tableEvp (known : List (Text × Digest)) : Evp := fun data =>
  match known.lookup data with
  | some d => .ok d
  | none => .error .digestFailed

def hashDigestToHex (d : Digest) : Text := d.toList.flatMap hexByte

theorem hex_length (d : Digest) : (hashDigestToHex d).length = 64 := by
  have h : ∀ l : List UInt8, (l.flatMap hexByte).length = 2*l.length := by
    intro l
    induction l with
    | nil => rfl
    | cons b l ih =>
      simp only [List.flatMap_cons, List.length_append, ih, hexByte, List.length_cons,
        List.length_nil]
      omega
  rw [hashDigestToHex, h, Vector.length_toList]

theorem hex_char (d : Digest) (c : Char) (hc : c ∈ hashDigestToHex d) :
    ∃ n, c = Nat.digitChar n := by
  simp only [hashDigestToHex, List.mem_flatMap, hexByte, List.mem_cons, List.not_mem_nil,
    or_false] at hc
  obtain ⟨b, _, hb | hb⟩ := hc
  · exact ⟨_, hb⟩
  · exact ⟨_, hb⟩

theorem hex_plain (d : Digest) : Plain (hashDigestToHex d) := by
  intro c hc
  obtain ⟨n, rfl⟩ := hex_char d c hc
  exact digitChar_plain n

theorem hex_injective : Function.Injective hashDigestToHex := by
  have h : ∀ l m : List UInt8, l.flatMap hexByte = m.flatMap hexByte → l = m := by
    intro l
    induction l with
    | nil =>
      intro m hm
      cases m with
      | nil => rfl
      | cons b m => simp [hexByte] at hm
    | cons a l ih =>
      intro m hm
      cases m with
      | nil => simp [hexByte] at hm
      | cons b m =>
        simp only [List.flatMap_cons] at hm
        obtain ⟨hb, ht⟩ := List.append_inj hm rfl
        rw [hexByte_injective hb, ih m ht]
  intro d e hde
  exact Vector.toList_inj.mp (h _ _ hde)

end EraseCure.Hashing

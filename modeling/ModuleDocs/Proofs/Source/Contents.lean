import Mathlib
import ModuleDocs.Container.Encode
import ModuleDocs.Proofs.Compile.Check
import ModuleDocs.Proofs.File.Contents
import ModuleDocs.Proofs.Source.Limits
import ModuleDocs.Proofs.Text.Decoding

/-!
# Files within the limits

A compilation may read any file, also one that an earlier compilation wrote.  No token
starts with the first letter of a container, so that a container adds no tokens to those of
the files that were there (`hasLimitedTokens_of_container`), and what all tokens of the
files have in common stays so (`allTokens_of_holds`).
-/

namespace ModuleDocs

/-! ## First letters -/

namespace Utf8

/-- A byte of ASCII in front of others is read as its character. -/
theorem exists_cons_of_decode {n : Nat} (hn : n < 0x80) {rest : Bytes} {t : Text}
    (h : decode (UInt8.ofNat n :: rest) = .ok t) : ∃ more, t = .ofNat n :: more := by
  rw [decode, pieces, piecesFrom_of_lead_inl (lead_one 0 hn), piecesFrom_eq_append] at h
  change collect _ [.ofNat n] _ = .ok t at h
  obtain ⟨more, rfl, _⟩ := exists_of_collect h
  exact ⟨more, rfl⟩

end Utf8

theorem Container.exists_cons_of_encode {hash : Hash} {chunks : Chunks} {data : Bytes}
    (h : encode hash chunks = .ok data) : ∃ rest, data = UInt8.ofNat 0x44 :: rest := by
  obtain ⟨named, _, h⟩ := Result.bind_eq_ok_iff.1 h
  obtain ⟨table, _, h⟩ := Result.bind_eq_ok_iff.1 h
  split at h
  · cases h
  · cases h
    exact ⟨_, rfl⟩

namespace Source

variable {home : Path} {fs : FileSystem} {data : Bytes}

/-! ## Files -/

/-- If the bytes are those of a text, it is within the limits. -/
def IsLimitedFile (data : Bytes) : Prop :=
  ∀ t, Utf8.decode data = .ok t → IsLimitedText t.unifyLineEnds

/-- If the bytes are those of a sequence of forms, its tokens are within the limits. -/
def HasLimitedTokens (data : Bytes) : Prop :=
  ∀ t nodes, Utf8.decode data = .ok t → Forms.ofText t.unifyLineEnds = .ok nodes →
    ∀ token ∈ (Tokens.ofText t.unifyLineEnds).tokens, token.IsLimited

theorem IsLimitedFile.hasLimitedTokens (h : IsLimitedFile data) : HasLimitedTokens data :=
  fun t _ ht hnodes => (h t ht).tokens hnodes

/-- A container has no tokens at all. -/
theorem hasLimitedTokens_of_container {hash : Hash} {chunks : Chunks}
    (h : Container.encode hash chunks = .ok data) : HasLimitedTokens data := by
  obtain ⟨rest, rfl⟩ := Container.exists_cons_of_encode h
  intro t nodes ht _
  obtain ⟨more, rfl⟩ := Utf8.exists_cons_of_decode (by norm_num) ht
  have hletter : Text.unifyLineEnds (.ofNat 0x44 :: more)
      = CodePoint.ofNat 0x44 :: Text.unifyLineEnds more := by
    rw [Text.unifyLineEnds.eq_def]
    exact if_neg (by decide)
  have hnone : ∀ text, lexeme? (.ofNat 0x44) text = none := by
    intro text
    cases text <;> rfl
  rw [hletter, Tokens.ofText, Tokens.ofTextFrom, hnone]
  simp

/-- The tokens of all texts among the files are within the limits. -/
theorem allTokens_of_holds (h : fs.Holds home HasLimitedTokens) : AllTokens Token.IsLimited fs := by
  intro p t nodes ht hnodes
  obtain ⟨data, hread, ht⟩ := Result.bind_eq_ok_iff.1 ht
  obtain ⟨raw, hraw, rfl⟩ := Result.bind_pure_eq_ok_iff.1 ht
  exact h.read (Result.mapError_eq_ok_iff.1 hread) raw nodes (Result.mapError_eq_ok_iff.1 hraw)
    hnodes

end Source

end ModuleDocs

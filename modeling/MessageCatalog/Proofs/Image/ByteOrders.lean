import MessageCatalog.Proofs.Charset.Cyrillic
import MessageCatalog.Proofs.Image.Framing

/-! The byte order of an image affects header and table words, never strings. Equal entries in
either order are read alike. -/
namespace MessageCatalog.Image

open Binary Charset

/-- For every revision, options and entries whose image fits into words; the revision alone decides
which case holds. -/
theorem read_either_order {E : Type} [Encodings E] (options : LoadOptions E)
    (revision : Revision) (entries : List Entry)
    (major : revision.major < 0x10000) (minor : revision.minor < 0x10000)
    (fits : (Draft.ofEntries .little revision entries).bytes.length < 0x100000000) :
    (1 < revision.major ∧ ∀ order : ByteOrder,
      read options (Draft.ofEntries order revision entries).bytes =
        .error (.unsupportedRevision revision.major revision.minor)) ∨
    (revision.major ≤ 1 ∧ ∀ order : ByteOrder,
      read options (Draft.ofEntries order revision entries).bytes =
        .ok ⟨order, revision, Contents.ofEntries options entries⟩) := by
  rcases Nat.lt_or_ge 1 revision.major with newer | supported
  · exact .inl ⟨newer, fun order => read_ofEntries_of_newer newer major minor⟩
  · refine .inr ⟨supported, fun order => read_ofEntries supported minor ?_⟩
    -- An image is as long in one order as in the other.
    rw [Draft.length_bytes_ofEntries] at fits ⊢
    exact fits

def cyrillicEntries : List Entry :=
  [⟨[], Utf8.encode "Content-Type: text/plain; charset=ISO-8859-5\n".toList⟩,
    ⟨[0x61], [0xD4, 0xDE]⟩]

/-- In both images the second entry is in the charset that the first one declares. -/
theorem read_either_order_cyrillic :
    (Draft.ofEntries .little ⟨1, 2⟩ cyrillicEntries).bytes.length < 0x100000000 ∧
      ∃ contents, contents.messages.find? "a" = some ["до"] ∧
        ∀ order : ByteOrder,
          read Cyrillic.options (Draft.ofEntries order ⟨1, 2⟩ cyrillicEntries).bytes =
            .ok ⟨order, ⟨1, 2⟩, contents⟩ := by
  have fits : (Draft.ofEntries .little ⟨1, 2⟩ cyrillicEntries).bytes.length < 0x100000000 := by
    decide +kernel
  rcases read_either_order Cyrillic.options ⟨1, 2⟩ cyrillicEntries (by decide)
      (by decide) fits with
    ⟨newer, -⟩ | ⟨-, same⟩
  · exact absurd newer (by decide)
  · exact ⟨fits, _, by decide +kernel, same⟩

end MessageCatalog.Image

import TemporalCheck.Proofs.Reading.Definition
import TemporalCheck.Proofs.Reading.Tiling
import TemporalCheck.Proofs.Session.Failure

/-!
# TemporalCheck.Proofs.Session.Blame

What errors point at.  The place of an error is that of some text inside the input, and the text is
what the error is about (`Error.Concerns`).  The tokens of an input stand where their spans say
(`Tiles`), so it is enough that every error names a token of the input: the reader of formulas stops
at one (`Stream.StopsWith`), the first flaw of a definition is one, and the records of a definition
keep the places of the tokens that write their names and successors.
-/

namespace TemporalCheck

variable {ts us : List Token} {t : Token} {r : Record} {rs xs ys : List Record} {s u : Stream}
  {source text : String} {cause : ParseError}

/-! ## The tokens of records -/

theorem DerivesRecord.exists_name (h : DerivesRecord ts r) :
    ∃ t ∈ ts, t.Writes (r.name, r.span) := by
  obtain ⟨-, -, hname, -, -, -⟩ := h
  exact ⟨_, by simp, hname, rfl⟩

theorem DerivesDefinition.kind_ne_eof (h : DerivesDefinition ts rs) :
    ∀ t ∈ ts, t.kind ≠ .eof := by
  obtain ⟨ht, hrs⟩ := h
  exact List.forall_mem_cons.2 ⟨by simp [ht], hrs.kind_ne_eof⟩

theorem Begins.kind_ne_eof (h : Begins ts) : ∀ t ∈ ts, t.kind ≠ .eof := by
  obtain ⟨us, rs, hdef⟩ := h
  exact (List.forall_mem_append.1 hdef.kind_ne_eof).1

/-- The first flaw of a definition is a number that cannot be read or a token that was not
expected. -/
theorem FirstFlaw.cases (h : FirstFlaw s cause) :
    s.StopsWith cause ∨ ∃ t ∈ s, t.kind = .integer ∧ (∀ i, ¬ Text.Spells t.text i) ∧
      cause = .malformedInteger t.text t.span := by
  cases h with
  | malformed _ ht _ h => exact .inr ⟨_, by simp, ht, h, rfl⟩
  | unexpected hts => exact .inl ⟨_, _, _, _, rfl, hts.kind_ne_eof, rfl⟩

/-! ## Tokens in their places -/

theorem Tiles.stop_le {t' : Token} (h : Tiles source (ts ++ us)) (ht : t ∈ ts) (ht' : t' ∈ us) :
    t.span.stop ≤ t'.span.offset :=
  (List.pairwise_append.1 h.ordered).2.2 t ht t' ht'

namespace Session

variable {s s' : Session} {error : Error}

end Session

end TemporalCheck

import ToolGate.Proofs.Steps
import ToolGate.Token.Archive

namespace ToolGate

namespace Folder

variable {f : Folder} {name text : String}

theorem check_ok : f.check name = .ok () ↔ (f.path ++ "/" ++ name).utf8ByteSize ≤ maxFilePath ∧
    f.made ∧ name.utf8ByteSize ≤ maxFileName := by
  rw [← Nat.not_lt, ← Nat.not_lt, check]
  split
  · simp_all
  · split
    · simp_all
    · split <;> simp_all

theorem check_of_append {more : String} (h : f.check (name ++ more) = .ok ()) :
    f.check name = .ok () := by
  rw [check_ok] at h ⊢
  obtain ⟨hpath, hmade, hname⟩ := h
  simp only [String.utf8ByteSize_append] at hpath hname ⊢
  exact ⟨by omega, hmade, by omega⟩

theorem read_put (h : f.check name = .ok ()) : (f.put name text).read name = .ok text := by
  have hcheck : (f.put name text).check name = .ok () := h
  have hget : (f.put name text).files.get? name = some text := by
    rw [put, Named.get?_put, if_pos rfl]
  rw [read, hcheck, hget]
  rfl

theorem made_of_read (h : f.read name = .ok text) : f.made := by
  obtain ⟨_, hcheck, -⟩ := bind_ok.1 h
  exact (check_ok.1 hcheck).2.1

theorem make_of_made (h : f.made) : f.make = f := by
  rw [make, ← h]

end Folder

namespace Archive

variable {d d' : Folder} {execution : String} {text other : Text.Wide}

theorem load_some : load d execution = .ok (some text) ↔ ∃ name content,
    fileName execution = .ok name ∧ d.read name = .ok content ∧ .ofString content = text := by
  unfold load
  cases fileName execution with
  | error f => simp
  | ok name =>
      cases hread : d.read name with
      | ok content => simp [hread]
      | error f => cases f <;> simp [hread]

theorem load_save (h : save d execution text = (.ok (), d')) :
    load d' execution = .ok (some (.ofString text.encoded)) := by
  unfold save at h
  split at h
  · cases h
  · rename_i name hname
    dsimp only at h
    split at h
    · cases h
    · rename_i hcheck
      cases h
      exact load_some.2 ⟨name, _, hname, Folder.read_put (Folder.check_of_append hcheck), rfl⟩

theorem load_save_ofString {s : String} (h : save d execution s = (.ok (), d')) :
    load d' execution = .ok (some (.ofString s)) := by
  rw [load_save h, Text.Wide.encoded_ofString]

theorem load_of_save_error {f : ArchiveFault} (hkept : load d execution = .ok (some text))
    (h : save d execution other = (.error f, d')) : load d' execution = .ok (some text) := by
  obtain ⟨name, content, hname, hread, -⟩ := load_some.1 hkept
  have hmake : d.make = d := Folder.make_of_made (Folder.made_of_read hread)
  unfold save at h
  rw [hname] at h
  dsimp only at h
  split at h
  · cases h
    rw [hmake, hkept]
  · cases h

end Archive

end ToolGate

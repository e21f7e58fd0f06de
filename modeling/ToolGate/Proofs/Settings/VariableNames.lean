import ToolGate.Proofs.Settings.Placing
import ToolGate.Proofs.Text.Case
import ToolGate.Settings.Environment

namespace ToolGate

namespace Settings

theorem intercalate_path (text : String) :
    ['.'].intercalate ((path text).map String.toList) = text.toList := by
  have hparts : (path text).map String.toList = pathParts text.toList := by
    simp [path, Function.comp_def]
  rw [hparts, pathParts_eq]
  exact List.intercalate_splitOn '.'

end Settings

namespace Environment

open Text (IsAscii)

variable {c : Char} {cs rest s : List Char} {ss : List (List Char)}

def isPlain (c : Char) : Bool :=
  c.isLower || c.isDigit

inductive IsCamelCase : List Char → Prop
  | word {c : Char} {cs : List Char} : c.isLower → cs.all isPlain → IsCamelCase (c :: cs)
  | hump {name : List Char} {c : Char} {cs : List Char} : IsCamelCase name → c.isUpper →
      cs.all isPlain → IsCamelCase (name ++ c :: cs)

def constantCase (name : List Char) : List Char :=
  (name.flatMap fun c => if c.isUpper then ['_', c] else [c]).flatMap Text.upperChar

def variableKey (path : String) : String :=
  String.ofList (['_', '_'].intercalate
    ((Settings.path path).map fun name => constantCase name.toList))

def IsLetter (c : Char) : Prop :=
  isPlain c ∨ c.isUpper

theorem IsCamelCase.letters (h : IsCamelCase cs) : ∀ c ∈ cs, IsLetter c := by
  induction h with
  | word hc hcs =>
      refine List.forall_mem_cons.2 ⟨.inl (by simp [isPlain, hc]), fun c hmem => ?_⟩
      exact .inl (List.all_eq_true.1 hcs c hmem)
  | hump hname hc hcs ih =>
      refine List.forall_mem_append.2 ⟨ih, List.forall_mem_cons.2 ⟨.inr hc, fun c hmem => ?_⟩⟩
      exact .inl (List.all_eq_true.1 hcs c hmem)

theorem IsCamelCase.exists_head (h : IsCamelCase cs) : ∃ c rest, cs = c :: rest ∧ isPlain c := by
  induction h with
  | @word c cs hc hcs => exact ⟨c, cs, rfl, by simp [isPlain, hc]⟩
  | hump hname hc hcs ih =>
      obtain ⟨first, rest, rfl, hfirst⟩ := ih
      exact ⟨first, _, rfl, hfirst⟩

section Letters

theorem isAscii_of_isPlain (hc : isPlain c) : IsAscii c := by
  have hletter : IsAscii 'z' := by decide
  have hdigit : IsAscii '9' := by decide
  rcases (Bool.or_eq_true _ _).mp hc with hlower | hnumeral
  · exact hletter.of_le (of_decide_eq_true ((Bool.and_eq_true _ _).mp hlower).2)
  · exact hdigit.of_le (of_decide_eq_true ((Bool.and_eq_true _ _).mp hnumeral).2)

theorem isAscii_of_isUpper (hc : c.isUpper) : IsAscii c := by
  have hletter : IsAscii 'Z' := by decide
  exact hletter.of_le (of_decide_eq_true hc).2

theorem isUpper_of_isPlain (hc : isPlain c) : c.isUpper = false :=
  (isAscii_of_isPlain hc).of_all (fun c => isPlain c → c.isUpper = false) (by decide +kernel) hc

theorem toLower_toUpper_of_isPlain (hc : isPlain c) : c.toUpper.toLower = c :=
  (isAscii_of_isPlain hc).of_all (fun c => isPlain c → c.toUpper.toLower = c)
    (by decide +kernel) hc

theorem toUpper_of_isUpper (hc : c.isUpper) : c.toUpper = c :=
  (isAscii_of_isUpper hc).of_all (fun c => c.isUpper → c.toUpper = c) (by decide +kernel) hc

theorem toUpper_toLower_of_isUpper (hc : c.isUpper) : c.toLower.toUpper = c :=
  (isAscii_of_isUpper hc).of_all (fun c => c.isUpper → c.toLower.toUpper = c)
    (by decide +kernel) hc

theorem IsLetter.ne_underscore (hc : IsLetter c) : c ≠ '_' := by
  rintro rfl
  rcases hc with hplain | hupper
  · exact absurd hplain (by decide)
  · exact absurd hupper (by decide)

theorem toUpper_ne_underscore (hc : isPlain c) : c.toUpper ≠ '_' := by
  intro hmark
  have hback := toLower_toUpper_of_isPlain hc
  rw [hmark] at hback
  exact IsLetter.ne_underscore (.inl hc) hback.symm

theorem toLower_ne_underscore (hc : c.isUpper) : c.toLower ≠ '_' := by
  intro hmark
  have hback := toUpper_toLower_of_isUpper hc
  rw [hmark] at hback
  exact IsLetter.ne_underscore (.inr hc) hback.symm

end Letters

section Rendering

theorem constantCase_plain (hc : isPlain c) (cs : List Char) :
    constantCase (c :: cs) = c.toUpper :: constantCase cs := by
  simp [constantCase, isUpper_of_isPlain hc, Text.upperChar_of_ascii (isAscii_of_isPlain hc)]

theorem constantCase_upper (hc : c.isUpper) (cs : List Char) :
    constantCase (c :: cs) = '_' :: c :: constantCase cs := by
  have hmark : Text.upperChar '_' = ['_'] := Text.upperChar_of_ascii (by decide)
  simp [constantCase, hc, hmark, Text.upperChar_of_ascii (isAscii_of_isUpper hc),
    toUpper_of_isUpper hc]

theorem isAscii_of_mem_constantCase (h : ∀ c ∈ cs, IsLetter c) :
    ∀ c ∈ constantCase cs, IsAscii c := by
  induction cs with
  | nil => exact nofun
  | cons c cs ih =>
      obtain ⟨hc, hcs⟩ := List.forall_mem_cons.1 h
      have hrest := ih hcs
      rcases hc with hplain | hupper
      · rw [constantCase_plain hplain]
        exact List.forall_mem_cons.2 ⟨(isAscii_of_isPlain hplain).toUpper, hrest⟩
      · rw [constantCase_upper hupper]
        refine List.forall_mem_cons.2 ⟨by decide, List.forall_mem_cons.2 ⟨?_, hrest⟩⟩
        exact isAscii_of_isUpper hupper

theorem segments_cons (h : segments rest = s :: ss) (hpair : c = '_' → rest.head? ≠ some '_') :
    segments (c :: rest) = (c :: s) :: ss := by
  rw [segments.eq_def]
  split
  · rename_i heq
    cases heq
  · rename_i heq
    cases heq
    exact absurd rfl (hpair rfl)
  · rename_i heq
    cases heq
    rw [h]

theorem segments_pair (rest : List Char) : segments ('_' :: '_' :: rest) = [] :: segments rest := by
  rw [segments]

theorem segments_constantCase (h : ∀ c ∈ cs, IsLetter c) (hrest : segments rest = [] :: ss) :
    segments (constantCase cs ++ rest) = constantCase cs :: ss := by
  induction cs with
  | nil => exact hrest
  | cons c cs ih =>
      obtain ⟨hc, hcs⟩ := List.forall_mem_cons.1 h
      rcases hc with hplain | hupper
      · rw [constantCase_plain hplain]
        exact segments_cons (ih hcs) fun heq => absurd heq (toUpper_ne_underscore hplain)
      · have hne := IsLetter.ne_underscore (.inr hupper)
        rw [constantCase_upper hupper]
        refine segments_cons (segments_cons (ih hcs) fun heq => absurd heq hne) fun _ => ?_
        simpa using hne

theorem segments_intercalate {names : List (List Char)} (hne : names ≠ [])
    (h : ∀ name ∈ names, ∀ c ∈ name, IsLetter c) :
    segments (['_', '_'].intercalate (names.map constantCase)) = names.map constantCase := by
  induction names with
  | nil => exact absurd rfl hne
  | cons name names ih =>
      obtain ⟨hname, hnames⟩ := List.forall_mem_cons.1 h
      cases names with
      | nil =>
          have hend : segments [] = [[]] := rfl
          simpa using segments_constantCase hname hend
      | cons next names =>
          have hrest := ih nofun hnames
          rw [List.map_cons, List.map_cons, List.intercalate_cons_cons, List.append_assoc]
          refine segments_constantCase hname ?_
          rw [List.map_cons] at hrest
          rw [List.cons_append, List.cons_append, List.nil_append, segments_pair, hrest]

theorem splitOn_plain (hc : isPlain c) (cs : List Char) :
    ((constantCase (c :: cs)).map Char.toLower).splitOn '_' =
      (((constantCase cs).map Char.toLower).splitOn '_').modifyHead (c :: ·) := by
  have hne := IsLetter.ne_underscore (.inl hc)
  rw [constantCase_plain hc, List.map_cons, toLower_toUpper_of_isPlain hc,
    List.splitOn_cons_eq_if_modifyHead, if_neg (by simpa using hne)]

theorem exists_splitOn (h : ∀ c ∈ cs, IsLetter c) : ∃ w ws,
    ((constantCase cs).map Char.toLower).splitOn '_' = w :: ws ∧ (∀ word ∈ ws, word ≠ []) ∧
      w ++ ws.flatMap Text.capitalize = cs := by
  induction cs with
  | nil => exact ⟨[], [], rfl, nofun, rfl⟩
  | cons c cs ih =>
      obtain ⟨hc, hcs⟩ := List.forall_mem_cons.1 h
      obtain ⟨w, ws, hsplit, hwords, hname⟩ := ih hcs
      rcases hc with hplain | hupper
      · refine ⟨c :: w, ws, ?_, hwords, congrArg (c :: ·) hname⟩
        rw [splitOn_plain hplain, hsplit, List.modifyHead_cons]
      · have hne := toLower_ne_underscore hupper
        have hascii := (isAscii_of_isUpper hupper).toLower
        refine ⟨[], (c.toLower :: w) :: ws, ?_, List.forall_mem_cons.2 ⟨nofun, hwords⟩, ?_⟩
        · rw [constantCase_upper hupper, List.map_cons, List.map_cons,
            List.splitOn_cons_eq_if_modifyHead, if_pos (by decide),
            List.splitOn_cons_eq_if_modifyHead, if_neg (by simpa using hne), hsplit,
            List.modifyHead_cons]
        · rw [List.nil_append, List.flatMap_cons, Text.capitalize_of_ascii hascii,
            toUpper_toLower_of_isUpper hupper, List.cons_append, hname]

theorem camelCase_constantCase (h : IsCamelCase cs) : camelCase (constantCase cs) = cs := by
  have hletters := h.letters
  have hlower := Text.lower_of_ascii (isAscii_of_mem_constantCase hletters)
  obtain ⟨c, rest, rfl, hc⟩ := h.exists_head
  obtain ⟨w, ws, hsplit, hwords, hname⟩ := exists_splitOn (List.forall_mem_cons.1 hletters).2
  have hkept : ∀ word ∈ (c :: w) :: ws, (!word.isEmpty) = true := by
    refine List.forall_mem_cons.2 ⟨rfl, fun word hword => ?_⟩
    simpa using hwords word hword
  have hall : words (Text.lower (constantCase (c :: rest))) = (c :: w) :: ws := by
    rw [words, hlower, splitOn_plain hc, hsplit, List.modifyHead_cons]
    exact List.filter_eq_self.2 hkept
  rw [camelCase, hall]
  exact congrArg (c :: ·) hname

end Rendering

theorem settingOf?_variable (key : String) : settingOf? (variablePrefix ++ key) =
    if key = "HOME" then none else (settingPath? key).map Settings.path := by
  have hhome : variablePrefix ++ key = homeVariable ↔ key = "HOME" := by
    have hname : homeVariable = variablePrefix ++ "HOME" := by decide
    rw [hname, String.append_right_inj]
  have hkey : (variablePrefix ++ key).toList.drop variablePrefix.length = key.toList := by
    rw [String.toList_append, ← String.length_toList, List.drop_left]
  have hprefix : variablePrefix.toList.isPrefixOf (variablePrefix ++ key).toList := by
    rw [String.toList_append]
    exact List.isPrefixOf_iff_prefix.2 (List.prefix_append _ _)
  simp only [settingOf?, hhome, if_pos hprefix, hkey, String.ofList_toList]

section Paths

variable {path : String}

theorem settingPath?_key (h : ∀ name ∈ Settings.path path, IsCamelCase name.toList) :
    settingPath? (variableKey path) = some path := by
  have hparts : segments (variableKey path).toList =
      ((Settings.path path).map String.toList).map constantCase := by
    have hne : (Settings.path path).map String.toList ≠ [] := by
      simpa using Settings.path_ne_nil path
    rw [← segments_intercalate hne (List.forall_mem_map.2 fun name hname => (h name hname).letters)]
    simp [variableKey, Function.comp_def]
  have hnames : (segments (variableKey path).toList).map camelCase =
      (Settings.path path).map String.toList := by
    rw [hparts, List.map_map, List.map_map]
    refine List.map_congr_left fun name hname => ?_
    rw [Function.comp_apply, Function.comp_apply, camelCase_constantCase (h name hname)]
  have hfull : ((Settings.path path).map String.toList).any List.isEmpty = false := by
    rw [List.any_map, List.any_eq_false]
    intro name hname
    obtain ⟨c, rest, hcs, -⟩ := (h name hname).exists_head
    simp [hcs]
  rw [settingPath?, hnames]
  simp [hfull, Settings.intercalate_path]

theorem variableKey_eq_home (h : ∀ name ∈ Settings.path path, IsCamelCase name.toList) :
    variableKey path = "HOME" ↔ path = "home" := by
  constructor
  · intro hkey
    have hback : settingPath? "HOME" = some "home" := by decide +kernel
    rw [← hkey, settingPath?_key h] at hback
    exact Option.some.inj hback
  · rintro rfl
    decide +kernel

theorem settingPath?_variableKey (h : ∀ name ∈ Settings.path path, IsCamelCase name.toList) :
    settingPath? (variableKey path) = some path ∧
      settingOf? (variablePrefix ++ variableKey path) =
        if path = "home" then none else some (Settings.path path) := by
  have hkey := settingPath?_key h
  refine ⟨hkey, ?_⟩
  rw [settingOf?_variable, hkey]
  simp only [variableKey_eq_home h, Option.map_some]

theorem settingPath?_variableKey_of_humps :
    settingPath? "EVALUATION__MAX_I_O_DEPTH2" = some "evaluation.maxIODepth2" ∧
      settingOf? "FLOWGUARD_EVALUATION__MAX_I_O_DEPTH2" = some ["evaluation", "maxIODepth2"] := by
  have hword : IsCamelCase "evaluation".toList := .word rfl rfl
  have hmax : IsCamelCase "max".toList := .word rfl rfl
  have hletters : IsCamelCase ("max".toList ++ 'I' :: [] ++ 'O' :: []) :=
    .hump (.hump hmax rfl rfl) rfl rfl
  have hhumps : IsCamelCase "maxIODepth2".toList := .hump hletters (c := 'D') rfl rfl
  have hpath : Settings.path "evaluation.maxIODepth2" = ["evaluation", "maxIODepth2"] := by decide
  have hkey : variableKey "evaluation.maxIODepth2" = "EVALUATION__MAX_I_O_DEPTH2" := by
    decide +kernel
  have hnames : ∀ name ∈ Settings.path "evaluation.maxIODepth2", IsCamelCase name.toList := by
    rw [hpath]
    exact List.forall_mem_cons.2 ⟨hword, List.forall_mem_singleton.2 hhumps⟩
  obtain ⟨hread, hvariable⟩ := settingPath?_variableKey hnames
  rw [hkey] at hread hvariable
  rw [if_neg (by decide), hpath] at hvariable
  exact ⟨hread, hvariable⟩

end Paths

end Environment

end ToolGate

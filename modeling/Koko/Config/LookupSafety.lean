import Koko.Config.Lookup
import Koko.Config.Parser
import Mathlib.Data.Fintype.EquivFin

/-! When the lookup of a field is defined, and what it returns then: the scan of the server
blocks dereferences the block of every `server` statement it comes to. -/
namespace Koko.Config
open Koko.Lib

/-- The second token of the first two-token statement with this name. -/
def fieldValue (field : Bytes) (statements : NginxConfig) : Option Bytes :=
  (statements.find? (fun s => s.tokens.length = 2 ∧ s.tokens.head? = some field)).bind (·.tokens[1]?)

def IsServer (s : NginxConfigStatement) : Prop := s.tokens.head? = some (ascii "server")

instance (s : NginxConfigStatement) : Decidable (IsServer s) := inferInstanceAs (Decidable (_ = _))

/-- The statements in the top-level server blocks, in order. -/
def serverBlocks (config : NginxConfig) : NginxConfig :=
  config.flatMap (fun s => if IsServer s then s.childBlock.getD [] else [])

/-- The value at top level, else the one in the server blocks, else the empty string. -/
def specifiedStr (config : NginxConfig) (field : Bytes) : Bytes :=
  ((fieldValue field config).or (fieldValue field (serverBlocks config))).getD []

/-- The field is found before the scan comes to a server statement without a block. -/
def ServersSafe (field : Bytes) (config : NginxConfig) : Prop :=
  ∀ before s after, config = before ++ s :: after → IsServer s → s.childBlock = none →
    (fieldValue field (serverBlocks before)).isSome = true

/-- The field is found at top level, or the scan of the server blocks is safe. -/
def LookupSafe (field : Bytes) (config : NginxConfig) : Prop :=
  (fieldValue field config).isSome = true ∨ ServersSafe field config

variable {field : Bytes}

private theorem getStrStatement_eq (field : Bytes) (s : NginxConfigStatement) :
    getStrStatement field s =
      if s.tokens.length = 2 ∧ s.tokens.head? = some field then s.tokens[1]? else none := by
  unfold getStrStatement
  by_cases hn : s.tokens.head? = some field
  · by_cases hl : s.tokens.length = 2 <;> simp [hn, hl]
  · simp [hn]

/-- The scan of a block finds the specified statement. -/
theorem findSome_eq_fieldValue (field : Bytes) (statements : NginxConfig) :
    statements.findSome? (getStrStatement field) = fieldValue field statements := by
  induction statements with
  | nil => rfl
  | cons s statements ih =>
    unfold fieldValue at ih ⊢
    rw [List.findSome?_cons, List.find?_cons, getStrStatement_eq, ih]
    by_cases h : s.tokens.length = 2 ∧ s.tokens.head? = some field
    · simp [h]
    · simp [h]

theorem fieldValue_append (field : Bytes) (a b : NginxConfig) :
    fieldValue field (a ++ b) = (fieldValue field a).or (fieldValue field b) := by
  rw [← findSome_eq_fieldValue, ← findSome_eq_fieldValue, ← findSome_eq_fieldValue, List.findSome?_append]

theorem serverBlocks_cons (s : NginxConfigStatement) (config : NginxConfig) :
    serverBlocks (s :: config) = (if IsServer s then s.childBlock.getD [] else []) ++ serverBlocks config :=
  List.flatMap_cons

/-- Past a statement that is no problem the scan is as safe as the rest. -/
private theorem serversSafe_cons {s : NginxConfigStatement} {config : NginxConfig}
    (hs : ¬ (IsServer s ∧ s.childBlock = none))
    (hf : fieldValue field (if IsServer s then s.childBlock.getD [] else []) = none) :
    ServersSafe field (s :: config) ↔ ServersSafe field config := by
  constructor
  · rintro h before t after rfl ht hb
    have hv := h (s :: before) t after rfl ht hb
    rwa [serverBlocks_cons, fieldValue_append, hf] at hv
  · intro h before t after he ht hb
    cases before with
    | nil =>
      obtain ⟨rfl, -⟩ := List.cons.inj he
      exact absurd ⟨ht, hb⟩ hs
    | cons u before =>
      obtain ⟨rfl, rfl⟩ := List.cons.inj he
      rw [serverBlocks_cons, fieldValue_append, hf]
      exact h before t after rfl ht hb

private theorem serversSafe_found {s : NginxConfigStatement} {config block : NginxConfig} (hs : IsServer s)
    (hb : s.childBlock = some block) {v : Bytes} (hv : fieldValue field block = some v) :
    ServersSafe field (s :: config) := by
  intro before t after he ht hn
  cases before with
  | nil =>
    obtain ⟨rfl, -⟩ := List.cons.inj he
    rw [hb] at hn
    cases hn
  | cons u before =>
    obtain ⟨rfl, -⟩ := List.cons.inj he
    simp [serverBlocks_cons, fieldValue_append, hs, hb, hv]

/-- One step of the scan of the server blocks. -/
theorem getStrServer_cons (field : Bytes) (s : NginxConfigStatement) (config : NginxConfig) :
    getStrServer field (s :: config) =
      if IsServer s then
        s.childBlock.bind (fun block => ((fieldValue field block).map some).getD (getStrServer field config))
      else getStrServer field config := by
  rw [getStrServer]
  simp only [findSome_eq_fieldValue]
  by_cases hs : IsServer s
  · rw [if_pos hs, if_pos (show s.tokens.head? = some (ascii "server") from hs)]
    cases s.childBlock with
    | none => rfl
    | some block =>
      simp only [Option.bind_eq_bind, Option.bind_some]
      cases fieldValue field block <;> rfl
  · rw [if_neg hs, if_neg (show ¬ s.tokens.head? = some (ascii "server") from hs)]

/-- The scan of the server blocks, by whether it is safe. -/
theorem getStrServer_spec (field : Bytes) (config : NginxConfig) :
    (ServersSafe field config → getStrServer field config = some ((fieldValue field (serverBlocks config)).getD [])) ∧
      (¬ ServersSafe field config → getStrServer field config = none) := by
  induction config with
  | nil => exact ⟨fun _ => rfl, fun h => absurd (fun before s after he => by simp at he) h⟩
  | cons s config ih =>
    rw [getStrServer_cons, serverBlocks_cons, fieldValue_append]
    by_cases hs : IsServer s
    · simp only [if_pos hs]
      cases hb : s.childBlock with
      | none =>
        have hsafe : ¬ ServersSafe field (s :: config) := by
          intro h
          have hv := h [] s config rfl hs hb
          simp [serverBlocks, fieldValue] at hv
        exact ⟨fun h => absurd h hsafe, fun _ => rfl⟩
      | some block =>
        simp only [Option.bind_some, Option.getD_some]
        cases hv : fieldValue field block with
        | some v => exact ⟨fun _ => rfl, fun h => absurd (serversSafe_found hs hb hv) h⟩
        | none =>
          rw [serversSafe_cons (by simp [hb]) (by simpa [hs, hb] using hv), Option.none_or]
          exact ih
    · simp only [if_neg hs]
      rw [serversSafe_cons (fun h => hs h.1) (by simp [hs, fieldValue])]
      exact ih

/-- A safe lookup returns the specified value and an unsafe one is undefined. -/
theorem getStr_spec (config : NginxConfig) (field : Bytes) :
    (LookupSafe field config → getStr config field = some (specifiedStr config field)) ∧
      (¬ LookupSafe field config → getStr config field = none) := by
  unfold LookupSafe specifiedStr getStr
  rw [findSome_eq_fieldValue]
  cases fieldValue field config with
  | some v => exact ⟨fun _ => rfl, fun h => absurd (.inl rfl) h⟩
  | none =>
    obtain ⟨h₁, h₂⟩ := getStrServer_spec field config
    exact ⟨fun h => h₁ (h.resolve_left (by simp)), fun h => h₂ (fun hs => h (.inr hs))⟩

theorem getStr_isSome_iff (config : NginxConfig) (field : Bytes) :
    (getStr config field).isSome = true ↔ LookupSafe field config := by
  obtain ⟨hsafe, hnot⟩ := getStr_spec config field
  by_cases h : LookupSafe field config
  · simp [hsafe h, h]
  · simp [hnot h, h]

theorem getNum_isSome (config : NginxConfig) (field : Bytes) :
    (getNum config field).isSome = (getStr config field).isSome := by
  unfold getNum
  cases getStr config field with
  | none => rfl
  | some value =>
    simp only [Option.bind_eq_bind, Option.bind_some]
    split <;> rfl

theorem lookupSafe_of_blocks {config : NginxConfig} (h : ∀ s ∈ config, IsServer s → s.childBlock ≠ none)
    (field : Bytes) : LookupSafe field config := by
  refine .inr (fun before s after he hs hb => absurd hb (h s ?_ hs))
  rw [he]
  exact List.mem_append_right before List.mem_cons_self

private theorem fieldValue_eq_none {statements : NginxConfig}
    (h : ∀ s ∈ statements, s.tokens.head? ≠ some field) : fieldValue field statements = none := by
  have hfind : statements.find? (fun s => s.tokens.length = 2 ∧ s.tokens.head? = some field) = none :=
    List.find?_eq_none.2 (fun s hs => by simp [h s hs])
  rw [fieldValue, hfind]
  rfl

/-- A name that starts none of the statements. -/
private theorem exists_absent_field (statements : NginxConfig) :
    ∃ field : Bytes, ∀ s ∈ statements, s.tokens.head? ≠ some field := by
  obtain ⟨field, hfield⟩ := Infinite.exists_notMem_finset (statements.filterMap (·.tokens.head?)).toFinset
  refine ⟨field, fun s hs he => hfield ?_⟩
  rw [List.mem_toFinset, List.mem_filterMap]
  exact ⟨s, hs, he⟩

/-- Without a block behind some server statement the lookup of an absent field is unsafe. -/
theorem exists_not_lookupSafe {config : NginxConfig} {s : NginxConfigStatement} (hs : s ∈ config)
    (hserver : IsServer s) (hb : s.childBlock = none) : ∃ field, ¬ LookupSafe field config := by
  obtain ⟨field, hfield⟩ := exists_absent_field (config ++ serverBlocks config)
  have hblocks : fieldValue field (serverBlocks config) = none :=
    fieldValue_eq_none (fun t ht => hfield t (List.mem_append_right _ ht))
  refine ⟨field, not_or.2 ⟨?_, fun h => ?_⟩⟩
  · rw [fieldValue_eq_none (fun t ht => hfield t (List.mem_append_left _ ht))]
    exact Bool.false_ne_true
  · obtain ⟨before, after, rfl⟩ := List.append_of_mem hs
    have hfound := h before s after rfl hserver hb
    rw [serverBlocks, List.flatMap_append, fieldValue_append, Option.or_eq_none_iff] at hblocks
    have hbefore : fieldValue field (serverBlocks before) = none := hblocks.1
    rw [hbefore] at hfound
    cases hfound

/-- A lookup completes with the specified value if the field is found before the scan comes to
a server statement without a block, and only then; so every lookup does exactly if all server
statements have one. -/
theorem lookup_defined_iff (config : NginxConfig) :
    (∀ field, ((∃ n, getNum config field = some n) ∧ getStr config field = some (specifiedStr config field)) ↔
      LookupSafe field config) ∧
    ((∀ field, (∃ n, getNum config field = some n) ∧ getStr config field = some (specifiedStr config field)) ↔
      ∀ s ∈ config, IsServer s → s.childBlock ≠ none) := by
  have hfield : ∀ field, ((∃ n, getNum config field = some n) ∧
      getStr config field = some (specifiedStr config field)) ↔ LookupSafe field config := by
    intro field
    rw [← Option.isSome_iff_exists, getNum_isSome, getStr_isSome_iff]
    exact and_iff_left_of_imp (getStr_spec config field).1
  refine ⟨hfield, (forall_congr' hfield).trans ⟨fun h s hs hserver hb => ?_, lookupSafe_of_blocks⟩⟩
  obtain ⟨field, hnot⟩ := exists_not_lookupSafe hs hserver hb
  exact hnot (h field)

/-- `server;` is accepted, and looking up the port then dereferences a null pointer. -/
theorem server_without_block_undefined :
    parse (.ofList (ascii "server;")) [] = some ⟨true, [.mk [ascii "server"] none], ""⟩ ∧
      getStr [.mk [ascii "server"] none] (ascii "port") = none ∧
      getNum [.mk [ascii "server"] none] (ascii "port") = none := by
  refine ⟨by decide +kernel, by decide, by decide⟩

end Koko.Config

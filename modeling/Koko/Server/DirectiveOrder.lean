import Koko.Config.LookupSafety
import Koko.Lib.Permutation
import Koko.Server.Registration

/-! The order of the statements in a file location. The keep-alive setting is looked up by its
name, the directory is taken from whatever statement comes first. -/
namespace Koko.Server
open Koko.Lib Koko.Config Koko.Handlers

/-- A block of two-token statements with distinct names, one of which gives the root. -/
structure FileBlock (root : Bytes) (block : NginxConfig) : Prop where
  twoTokens : ∀ s ∈ block, s.tokens.length = 2
  distinct : (block.map (·.tokens.head?)).Nodup
  hasRoot : ∃ s ∈ block, s.tokens = [ascii "root", root]

/-- The setting the block gives by name; a text without a number is the default 0. -/
def givenKeepAlive (block : NginxConfig) : Bool :=
  (stoi (specifiedStr block (ascii "keep-alive"))).toOption.getD 0 ≠ 0

/-- The setting is given, or no server statement lacks the block that its lookup then goes into. -/
def KeepAliveReadable (block : NginxConfig) : Prop :=
  (∃ s ∈ block, s.tokens.head? = some (ascii "keep-alive")) ∨ ∀ s ∈ block, IsServer s → s.childBlock ≠ none

/-- A handler of this name is built from the block, for this directory and with this setting. -/
def BuiltWith (urlPrefix name : Bytes) (block : NginxConfig) (root : Bytes) (keepAlive : Bool) : Prop :=
  ∃ label, ∃ file : FileHandler, ∃ behaviour ∈ [.file file, .compressedFile file],
    createHandler urlPrefix name block = some (some ⟨label, keepAlive, behaviour⟩) ∧
      file.invalidConfig = false ∧ file.linuxDir = root

/-- Of statements with distinct names a permutation has the same ones of one name, in one order. -/
theorem filter_named_perm {a b : NginxConfig} (hp : a.Perm b) (hd : (a.map (·.tokens.head?)).Nodup)
    {p : NginxConfigStatement → Bool} {name : Bytes} (hname : ∀ s, p s = true → s.tokens.head? = some name) :
    a.filter p = b.filter p := by
  refine filter_eq_of_perm hp ?_
  have hconst : (a.filter p).map (·.tokens.head?) = List.replicate (a.filter p).length (some name) := by
    rw [List.map_eq_replicate_iff]
    exact fun s hs => hname s (List.mem_filter.mp hs).2
  have hnodup := hd.sublist ((List.filter_sublist (p := p) (l := a)).map (·.tokens.head?))
  rw [hconst] at hnodup
  exact List.nodup_replicate.mp hnodup

theorem fieldValue_perm {a b : NginxConfig} (hp : a.Perm b) (hd : (a.map (·.tokens.head?)).Nodup) (field : Bytes) :
    fieldValue field a = fieldValue field b := by
  have hname : ∀ s : NginxConfigStatement, decide (s.tokens.length = 2 ∧ s.tokens.head? = some field) = true →
      s.tokens.head? = some field := fun s hs => (of_decide_eq_true hs).2
  rw [fieldValue, fieldValue, ← List.head?_filter, ← List.head?_filter, filter_named_perm hp hd hname]

theorem serverBlocks_eq (config : NginxConfig) :
    serverBlocks config = (config.filter (fun s => IsServer s)).flatMap (fun s => s.childBlock.getD []) := by
  induction config with
  | nil => rfl
  | cons s config ih =>
    rw [serverBlocks_cons, ih]
    by_cases hs : IsServer s
    · simp [hs]
    · simp [hs]

/-- What a block gives does not depend on the order of its statements. -/
theorem specifiedStr_perm {a b : NginxConfig} (hp : a.Perm b) (hd : (a.map (·.tokens.head?)).Nodup) (field : Bytes) :
    specifiedStr a field = specifiedStr b field := by
  have hname : ∀ s : NginxConfigStatement, decide (IsServer s) = true → s.tokens.head? = some (ascii "server") :=
    fun s hs => of_decide_eq_true hs
  rw [specifiedStr, specifiedStr, fieldValue_perm hp hd, serverBlocks_eq, serverBlocks_eq,
    filter_named_perm hp hd hname]

theorem FileBlock.perm {root : Bytes} {a b : NginxConfig} (h : FileBlock root a) (hp : a.Perm b) : FileBlock root b := by
  obtain ⟨s, hs, hroot⟩ := h.hasRoot
  exact ⟨fun s hs => h.twoTokens s (hp.mem_iff.mpr hs), (hp.map _).nodup_iff.mp h.distinct, s, hp.mem_iff.mp hs, hroot⟩

theorem keepAliveReadable_perm {a b : NginxConfig} (hp : a.Perm b) : KeepAliveReadable a ↔ KeepAliveReadable b := by
  unfold KeepAliveReadable
  simp only [hp.mem_iff]

/-- With distinct names no server block is searched before the only server statement. -/
theorem FileBlock.lookupSafe_iff {root : Bytes} {block : NginxConfig} (h : FileBlock root block) :
    LookupSafe (ascii "keep-alive") block ↔ KeepAliveReadable block := by
  have hgiven : (fieldValue (ascii "keep-alive") block).isSome = true ↔
      ∃ s ∈ block, s.tokens.head? = some (ascii "keep-alive") := by
    constructor
    · intro hs
      obtain ⟨v, hv⟩ := Option.isSome_iff_exists.mp hs
      obtain ⟨s, hfind, -⟩ := Option.bind_eq_some_iff.mp hv
      have hp := List.find?_some hfind
      exact ⟨s, List.mem_of_find?_eq_some hfind, (of_decide_eq_true hp).2⟩
    · rintro ⟨s, hs, hname⟩
      have hfound : (block.find? (fun s => s.tokens.length = 2 ∧ s.tokens.head? = some (ascii "keep-alive"))).isSome :=
        List.find?_isSome.mpr ⟨s, hs, decide_eq_true ⟨h.twoTokens s hs, hname⟩⟩
      obtain ⟨t, ht⟩ := Option.isSome_iff_exists.mp hfound
      have hlen := h.twoTokens t (List.mem_of_find?_eq_some ht)
      rw [fieldValue, ht, Option.bind_some, List.getElem?_eq_getElem (by omega)]
      rfl
  have hservers : ¬ (fieldValue (ascii "keep-alive") block).isSome = true →
      (ServersSafe (ascii "keep-alive") block ↔ ∀ s ∈ block, IsServer s → s.childBlock ≠ none) := by
    intro hnot
    constructor
    · intro hsafe s hs hserver hb
      obtain ⟨before, after, rfl⟩ := List.append_of_mem hs
      have hnone : serverBlocks before = [] := by
        refine List.flatMap_eq_nil_iff.mpr (fun t ht => if_neg (fun hserver' => ?_))
        have hd := h.distinct
        rw [List.map_append, List.map_cons, List.nodup_append] at hd
        exact hd.2.2 _ (List.mem_map_of_mem ht) _ List.mem_cons_self (hserver'.trans hserver.symm)
      have hfound := hsafe before s after rfl hserver hb
      rw [hnone] at hfound
      exact absurd hfound (by decide)
    · intro hb before s after he hserver hnone
      exact absurd hnone (hb s (by rw [he]; exact List.mem_append_right before List.mem_cons_self) hserver)
  unfold LookupSafe KeepAliveReadable
  rw [← hgiven]
  by_cases hs : (fieldValue (ascii "keep-alive") block).isSome = true
  · exact iff_of_true (.inl hs) (.inl hs)
  · rw [or_iff_right hs, or_iff_right hs, hservers hs]

/-- The setting is read if its lookup is safe, and then is the one the block gives. -/
theorem setKeepAliveFromConfig_eq_some_iff (block : NginxConfig) (keepAlive : Bool) :
    setKeepAliveFromConfig block = some keepAlive ↔
      LookupSafe (ascii "keep-alive") block ∧ keepAlive = givenKeepAlive block := by
  obtain ⟨hsafe, hnot⟩ := getStr_spec block (ascii "keep-alive")
  unfold setKeepAliveFromConfig
  by_cases h : LookupSafe (ascii "keep-alive") block
  · have hdefault : (defaultNums.lookup (ascii "keep-alive")).getD 0 = 0 := by decide
    rw [getNum_of_getStr (hsafe h), hdefault, and_iff_right h]
    exact ⟨fun he => (Option.some.inj he).symm, fun he => congrArg some he.symm⟩
  · have hnone : getNum block (ascii "keep-alive") = none := by
      refine Option.not_isSome_iff_eq_none.mp ?_
      rw [getNum_isSome, hnot h]
      exact Bool.false_ne_true
    rw [hnone]
    exact iff_of_false nofun (fun hn => h hn.1)

/-- A file location's handler, for either kind. -/
theorem createHandler_of_file {name : Bytes} (hname : name ∈ [ascii "StaticHandler", ascii "CompressedFileHandler"])
    (urlPrefix : Bytes) (block : NginxConfig) :
    ∃ label, ∃ behaviour ∈ [.file (FileHandler.new urlPrefix block), .compressedFile (FileHandler.new urlPrefix block)],
      createHandler urlPrefix name block =
        (setKeepAliveFromConfig block).map (fun keepAlive => some ⟨label, keepAlive, behaviour⟩) := by
  rcases List.mem_pair.mp hname with rfl | rfl
  · refine ⟨ascii "File", _, List.mem_cons_self, ?_⟩
    unfold createHandler
    rw [if_neg (by decide), if_pos rfl]
    cases setKeepAliveFromConfig block <;> rfl
  · refine ⟨ascii "CompressedFileHandler", _, List.mem_cons_of_mem _ List.mem_cons_self, ?_⟩
    unfold createHandler
    rw [if_neg (by decide), if_neg (by decide), if_neg (by decide), if_neg (by decide), if_neg (by decide),
      if_neg (by decide), if_neg (by decide), if_pos rfl]
    cases setKeepAliveFromConfig block <;> rfl

/-- The value of the first statement, whatever its name is. -/
def firstValue (block : NginxConfig) : Option Bytes := block[0]?.bind (·.tokens[1]?)

theorem new_eq_iff (urlPrefix : Bytes) (block : NginxConfig) (root : Bytes) :
    ((FileHandler.new urlPrefix block).invalidConfig = false ∧ (FileHandler.new urlPrefix block).linuxDir = root) ↔
      firstValue block = some root := by
  unfold FileHandler.new firstValue
  rw [Option.bind_eq_bind]
  cases block[0]?.bind (·.tokens[1]?) with
  | none => simp
  | some linuxDir => simp

/-- What is built from a file block, in whatever order its statements stand. -/
theorem FileBlock.builtWith_iff {root : Bytes} {block : NginxConfig} (h : FileBlock root block) {name : Bytes}
    (hname : name ∈ [ascii "StaticHandler", ascii "CompressedFileHandler"]) (urlPrefix dir : Bytes) (keepAlive : Bool) :
    BuiltWith urlPrefix name block dir keepAlive ↔
      firstValue block = some dir ∧ KeepAliveReadable block ∧ keepAlive = givenKeepAlive block := by
  obtain ⟨label, behaviour, hb, hcreate⟩ := createHandler_of_file hname urlPrefix block
  rw [← h.lookupSafe_iff, ← setKeepAliveFromConfig_eq_some_iff, ← new_eq_iff urlPrefix block dir]
  unfold BuiltWith
  rw [hcreate]
  constructor
  · rintro ⟨label', file, behaviour', hb', hsome, hvalid, hdir⟩
    obtain ⟨k, hk, he⟩ := Option.map_eq_some_iff.mp hsome
    obtain ⟨-, rfl, rfl⟩ := RequestHandler.mk.inj (Option.some.inj he)
    have hfile : file = FileHandler.new urlPrefix block := by
      simp only [List.mem_cons, List.not_mem_nil, or_false] at hb hb'
      rcases hb with rfl | rfl <;> rcases hb' with hb' | hb' <;> simp_all
    rw [← hfile]
    exact ⟨⟨hvalid, hdir⟩, hk⟩
  · rintro ⟨⟨hvalid, hdir⟩, hk⟩
    exact ⟨label, _, behaviour, hb, by rw [hk]; rfl, hvalid, hdir⟩

/-- A file location is built as its block says when the first statement has the root's value and the
setting can be read, and in every order only when all statements have that value. -/
theorem file_location_order_iff {root : Bytes} {block : NginxConfig} (h : FileBlock root block) {name : Bytes}
    (hname : name ∈ [ascii "StaticHandler", ascii "CompressedFileHandler"]) (urlPrefix : Bytes) :
    (∀ block', block.Perm block' → (BuiltWith urlPrefix name block' root (givenKeepAlive block) ↔
      firstValue block' = some root ∧ KeepAliveReadable block)) ∧
    ((∀ block', block.Perm block' → BuiltWith urlPrefix name block' root (givenKeepAlive block)) ↔
      (∀ s ∈ block, s.tokens[1]? = some root) ∧ KeepAliveReadable block) := by
  have horder : ∀ block', block.Perm block' → (BuiltWith urlPrefix name block' root (givenKeepAlive block) ↔
      firstValue block' = some root ∧ KeepAliveReadable block) := by
    intro block' hp
    have hgiven : givenKeepAlive block = givenKeepAlive block' := by
      rw [givenKeepAlive, givenKeepAlive, specifiedStr_perm hp h.distinct]
    rw [(h.perm hp).builtWith_iff hname, hgiven, ← keepAliveReadable_perm hp]
    simp
  refine ⟨horder, fun hall => ⟨fun s hs => ?_, ?_⟩, fun hvalues block' hp => ?_⟩
  · -- the order that puts this statement first
    have hp := List.perm_cons_erase hs
    exact ((horder _ hp).mp (hall _ hp)).1
  · exact ((horder block (.refl block)).mp (hall block (.refl block))).2
  · refine (horder block' hp).mpr ⟨?_, hvalues.2⟩
    cases block' with
    | nil =>
      obtain ⟨s, hs, -⟩ := (h.perm hp).hasRoot
      cases hs
    | cons s rest => exact hvalues.1 s (hp.mem_iff.mpr List.mem_cons_self)

/-- The block of a location with its root and a keep-alive setting. -/
def rootFirst : NginxConfig :=
  [.mk [ascii "root", ascii "/srv"] none, .mk [ascii "keep-alive", ascii "1"] none]

theorem fileBlock_rootFirst : FileBlock (ascii "/srv") rootFirst :=
  ⟨by decide +kernel, by decide +kernel, by decide +kernel⟩

/-- With the setting first, its value is taken for the directory. -/
theorem keep_alive_first_taken_for_root :
    parse (.ofList (ascii "keep-alive 1; root /srv;")) [] = some ⟨true, rootFirst.reverse, ""⟩ ∧
    FileBlock (ascii "/srv") rootFirst ∧ rootFirst.Perm rootFirst.reverse ∧
    createHandler (ascii "/static") (ascii "StaticHandler") rootFirst.reverse =
      some (some ⟨ascii "File", true, .file ⟨ascii "/static", ascii "1", false⟩⟩) ∧
    ¬ BuiltWith (ascii "/static") (ascii "StaticHandler") rootFirst.reverse (ascii "/srv") (givenKeepAlive rootFirst) := by
  have hperm : rootFirst.Perm rootFirst.reverse := (List.reverse_perm rootFirst).symm
  refine ⟨by decide +kernel, fileBlock_rootFirst, hperm, by decide +kernel, fun h => ?_⟩
  have hfirst := (((fileBlock_rootFirst.perm hperm).builtWith_iff List.mem_cons_self _ _ _).mp h).1
  exact absurd hfirst (by decide +kernel)

theorem root_first_built :
    BuiltWith (ascii "/static") (ascii "StaticHandler") rootFirst (ascii "/srv") true := by
  have hgiven : givenKeepAlive rootFirst = true := by decide +kernel
  have hreadable : KeepAliveReadable rootFirst :=
    .inl ⟨.mk [ascii "keep-alive", ascii "1"] none, List.mem_cons_of_mem _ List.mem_cons_self, rfl⟩
  have h := (file_location_order_iff fileBlock_rootFirst List.mem_cons_self (ascii "/static")).1 rootFirst (.refl _)
  rw [hgiven] at h
  exact h.mpr ⟨by decide +kernel, hreadable⟩

end Koko.Server

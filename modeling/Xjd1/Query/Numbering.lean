import Xjd1.Query.Sources
import Xjd1.Query.Rewind
import Xjd1.Stmt.Command

/-! The numbers of the sources in a FROM clause. Names are resolved to numbers once; the
documents are counted, saved and read by them, each in a recursion of its own. -/
namespace Xjd1

open Fueled

variable {R : Type}

def DataSrc.isNamed (zDocname : Bytes) : DataSrc R → Bool
  | .subq zAs _ _ => zAs == some zDocname
  | .tab zAs _ zName _ => zAs == some zDocname || (zAs == none && zName == zDocname)
  | .path zAs _ _ _ _ => zAs == some zDocname
  | _ => false

/-- `datasrcResolveRecursive`: the entry that has the name, or 0, and the number of
the next entry. -/
def datasrcResolveRecursive (zDocname : Bytes) : DataSrc R → ℕ → ℕ × ℕ
  | .comma _ pLeft pRight, iEntry =>
    let (ret,iEntry) := datasrcResolveRecursive zDocname pLeft iEntry
    if ret = 0 then datasrcResolveRecursive zDocname pRight iEntry else (ret,iEntry)
  | .flatten _ pNext _ _ _ _, iEntry => datasrcResolveRecursive zDocname pNext iEntry
  | p, iEntry => (if p.isNamed zDocname then iEntry else 0,iEntry+1)

def xjd1DataSrcResolve (p : DataSrc R) (zDocname : Bytes) : ℕ := (datasrcResolveRecursive zDocname p 1).1

/-- `cacheSaveRecursive`, with the array and the place that `papNode` is at. -/
def cacheSaveRecursive : DataSrc R → List (JsonNode R) × ℕ → Exec (List (JsonNode R) × ℕ)
  | .comma _ pLeft pRight, s => do
    let s ← cacheSaveRecursive pLeft s
    cacheSaveRecursive pRight s
  | p, (apNode,i) => if i < apNode.length then .ok (apNode.set i p.pValue,i+1) else .stop .undefined

def sources : DataSrc R → List (DataSrc R)
  | .comma _ pLeft pRight => sources pLeft ++ sources pRight
  | p => [p]

/-- A source has the name after its AS, or else that of its collection. A FLATTEN has that of
the source under it. -/
def DataSrc.carries (zDocname : Bytes) : DataSrc R → Bool
  | .subq zAs _ _ => zAs == some zDocname
  | .tab zAs _ zName _ => zAs.getD zName == zDocname
  | .path zAs _ _ _ _ => zAs == some zDocname
  | .flatten _ pNext _ _ _ _ => pNext.carries zDocname
  | _ => false

/-- A source that is no join, as the grammar has them: under a FLATTEN there is no join either. -/
inductive FromItem : DataSrc R → Prop
  | subq {zAs : Option Bytes} {pValue : JsonNode R} {q : Query R} : FromItem (.subq zAs pValue q)
  | tab {zAs : Option Bytes} {pValue : JsonNode R} {zName : Bytes} {pStmt : ℕ} : FromItem (.tab zAs pValue zName pStmt)
  | path {zAs : Option Bytes} {pValue pArray : JsonNode R} {pPath : Expr R} {iNext : ℕ} :
    FromItem (.path zAs pValue pPath pArray iNext)
  | null {isDone : Bool} : FromItem (.null isDone)
  | flatten {pValue : JsonNode R} {pNext : DataSrc R} {cOpName : UInt8} {pExpr pAs : Expr R}
      {pIter : Option (FlattenIter R)} (h : FromItem pNext) : FromItem (.flatten pValue pNext cOpName pExpr pAs pIter)

/-- A FROM clause: joins of such sources. -/
inductive FromTree : DataSrc R → Prop
  | item {p : DataSrc R} (h : FromItem p) : FromTree p
  | comma {bStart : Bool} {pLeft pRight : DataSrc R} (hl : FromTree pLeft) (hr : FromTree pRight) :
    FromTree (.comma bStart pLeft pRight)

theorem FromItem.sources {p : DataSrc R} (h : FromItem p) : sources p = [p] := by cases h <;> rfl

theorem sources_length (p : DataSrc R) : (sources p).length = xjd1DataSrcCount p := by
  induction p using xjd1DataSrcCount.induct with
  | case1 b l r ihl ihr => rw [sources,xjd1DataSrcCount,List.length_append,ihl,ihr]
  | case2 p hp =>
    cases p with
    | comma b l r => exact absurd rfl (hp b l r)
    | _ => rfl

theorem cacheSave_eq_sources (p : DataSrc R) : xjd1DataSrcCacheSave p = (sources p).map DataSrc.pValue := by
  induction p using xjd1DataSrcCount.induct with
  | case1 b l r ihl ihr => rw [sources,xjd1DataSrcCacheSave,List.map_append,ihl,ihr]
  | case2 p hp =>
    cases p with
    | comma b l r => exact absurd rfl (hp b l r)
    | _ => rfl

theorem isNamed_tab (zAs : Option Bytes) (zName zDocname : Bytes) :
    (zAs == some zDocname || (zAs == none && zName == zDocname)) = (zAs.getD zName == zDocname) := by
  cases zAs <;> simp

theorem FromItem.resolve {p : DataSrc R} (h : FromItem p) (zDocname : Bytes) (iEntry : ℕ) :
    datasrcResolveRecursive zDocname p iEntry = (if p.carries zDocname then iEntry else 0,iEntry+1) := by
  induction h with
  | tab => exact congrArg (fun b : Bool => (if b then iEntry else 0,iEntry+1)) (isNamed_tab _ _ _)
  | flatten h ih => exact ih
  | _ => rfl

/-- The search numbers the sources from `iEntry` on, up to the first one that has the name. -/
theorem FromTree.resolve {p : DataSrc R} (h : FromTree p) (zDocname : Bytes) {iEntry : ℕ} (hi : 0 < iEntry) :
    (datasrcResolveRecursive zDocname p iEntry).1 =
      ((sources p).findIdx? (DataSrc.carries zDocname)).elim 0 (iEntry + ·) ∧
    ((sources p).findIdx? (DataSrc.carries zDocname) = none →
      (datasrcResolveRecursive zDocname p iEntry).2 = iEntry + (sources p).length) := by
  induction h generalizing iEntry with
  | item h =>
    rw [h.resolve,h.sources,List.findIdx?_singleton]
    refine ⟨?_,fun _ => rfl⟩
    split <;> rfl
  | @comma b l r hl hr ihl ihr =>
    obtain ⟨h1,h2⟩ := ihl hi
    rw [datasrcResolveRecursive,sources,List.findIdx?_append]
    generalize datasrcResolveRecursive zDocname l iEntry = x at h1 h2
    obtain ⟨ret,iEntry'⟩ := x
    simp only at h1 h2 ⊢
    cases hf : (sources l).findIdx? (DataSrc.carries zDocname) with
    | some k =>
      rw [hf,Option.elim_some] at h1
      rw [if_neg (by omega)]
      exact ⟨h1,fun h => by cases h⟩
    | none =>
      rw [hf,Option.elim_none] at h1
      obtain rfl := h2 hf
      obtain ⟨h3,h4⟩ := ihr (Nat.add_pos_left hi (sources l).length)
      rw [if_pos h1,h3,Option.none_or,List.length_append]
      refine ⟨?_,fun h => ?_⟩
      · cases (sources r).findIdx? (DataSrc.carries zDocname) with
        | none => rfl
        | some k =>
          simp only [Option.elim_some,Option.map_some]
          omega
      · rw [h4 (Option.map_eq_none_iff.mp h),Nat.add_assoc]

/-- The number of a name is one more than the index of the first source that has it. -/
theorem FromTree.resolve_eq {p : DataSrc R} (h : FromTree p) (zDocname : Bytes) :
    xjd1DataSrcResolve p zDocname = ((sources p).findIdx? (DataSrc.carries zDocname)).elim 0 (1 + ·) :=
  (h.resolve zDocname Nat.one_pos).1

/-- The documents take the places of as many old ones, and no other slot changes. -/
theorem cacheSaveRecursive_eq (p : DataSrc R) (pre : List (JsonNode R)) {old : List (JsonNode R)}
    (post : List (JsonNode R)) (h : old.length = xjd1DataSrcCount p) :
    cacheSaveRecursive p (pre ++ (old ++ post),pre.length) =
      .ok (pre ++ (xjd1DataSrcCacheSave p ++ post),pre.length + xjd1DataSrcCount p) := by
  induction p using xjd1DataSrcCount.induct generalizing pre old post with
  | case1 b l r ihl ihr =>
    rw [xjd1DataSrcCount] at h
    have htake : (old.take (xjd1DataSrcCount l)).length = xjd1DataSrcCount l := by
      rw [List.length_take]
      omega
    have hdrop : (old.drop (xjd1DataSrcCount l)).length = xjd1DataSrcCount r := by
      rw [List.length_drop]
      omega
    have hl := ihl pre (old.drop (xjd1DataSrcCount l) ++ post) htake
    have hr := ihr (pre ++ xjd1DataSrcCacheSave l) post hdrop
    rw [List.append_assoc,List.length_append,cacheSave_length,List.append_assoc] at hr
    rw [← List.take_append_drop (xjd1DataSrcCount l) old,List.append_assoc,cacheSaveRecursive,hl,Run.ok_bind,hr,
      xjd1DataSrcCacheSave,xjd1DataSrcCount,List.append_assoc,Nat.add_assoc]
  | case2 p hp =>
    have hleaf : cacheSaveRecursive p (pre ++ (old ++ post),pre.length) =
        if pre.length < (pre ++ (old ++ post)).length then
          .ok ((pre ++ (old ++ post)).set pre.length p.pValue,pre.length+1) else .stop .undefined := by
      cases p with
      | comma b l r => exact absurd rfl (hp b l r)
      | _ => rfl
    have hsave : xjd1DataSrcCacheSave p = [p.pValue] ∧ xjd1DataSrcCount p = 1 := by
      cases p with
      | comma b l r => exact absurd rfl (hp b l r)
      | _ => exact ⟨rfl,rfl⟩
    rw [hsave.2] at h
    obtain ⟨v,rfl⟩ := List.length_eq_one_iff.mp h
    rw [hleaf,if_pos (by simp),hsave.1,hsave.2,List.set_append_right _ _ (Nat.le_refl _),Nat.sub_self]
    rfl

/-- `k` is the number of the leftmost source that has the name; its document is read under
that number, and is in slot `k-1`. -/
structure Locates (p : DataSrc R) (zDocname : Bytes) (apNode : List (JsonNode R)) (k : ℕ) : Prop where
  le : k ≤ xjd1DataSrcCount p
  source : ∃ d, (sources p)[k-1]? = some d ∧ d.carries zDocname ∧ xjd1DataSrcRead p k = d.pValue ∧
    apNode[k-1]? = some d.pValue
  first : ∀ d ∈ (sources p).take (k-1), d.carries zDocname = false

/-- The traversals agree on the numbers: saving into an array fills as many slots as there are sources,
and a name is resolved to the source it stands for, or to 0 if there is none. -/
theorem resolve_agrees {p : DataSrc R} (hp : FromTree p) (zDocname : Bytes) {apNode : List (JsonNode R)}
    (hn : xjd1DataSrcCount p ≤ apNode.length) :
    (sources p).length = xjd1DataSrcCount p ∧
    ∃ docs, docs.length = xjd1DataSrcCount p ∧
      cacheSaveRecursive p (apNode,0) = .ok (docs ++ apNode.drop (xjd1DataSrcCount p),xjd1DataSrcCount p) ∧
      (0 < xjd1DataSrcResolve p zDocname → Locates p zDocname docs (xjd1DataSrcResolve p zDocname)) ∧
      (xjd1DataSrcResolve p zDocname = 0 → ∀ d ∈ sources p, d.carries zDocname = false) := by
  have hsave := cacheSaveRecursive_eq p [] (apNode.drop (xjd1DataSrcCount p))
    (by rw [List.length_take]; omega : (apNode.take (xjd1DataSrcCount p)).length = xjd1DataSrcCount p)
  rw [List.nil_append,List.take_append_drop,List.nil_append,List.length_nil,Nat.zero_add] at hsave
  refine ⟨sources_length p,_,cacheSave_length p,hsave,fun hk => ?_,fun hk => ?_⟩
  · rw [hp.resolve_eq] at hk ⊢
    cases hf : (sources p).findIdx? (DataSrc.carries zDocname) with
    | none =>
      rw [hf] at hk
      exact absurd hk (Nat.lt_irrefl 0)
    | some i =>
      obtain ⟨hi,hc,hfirst⟩ := List.findIdx?_eq_some_iff_getElem.mp hf
      have hlen := sources_length p
      rw [Option.elim_some]
      have hsub : 1 + i - 1 = i := Nat.add_sub_cancel_left 1 i
      have hslot : (xjd1DataSrcCacheSave p)[i]? = some ((sources p)[i]).pValue := by
        rw [cacheSave_eq_sources,List.getElem?_map,List.getElem?_eq_getElem hi,Option.map_some]
      have hread := dataSrcRead_eq (d := p) (k := 1+i) (by omega) (by omega)
      rw [hsub,hslot,Option.some.injEq] at hread
      refine ⟨by omega,⟨(sources p)[i],?_,hc,hread.symm,?_⟩,fun d hd => ?_⟩
      · rw [hsub,List.getElem?_eq_getElem hi]
      · rw [hsub,hslot]
      · rw [hsub] at hd
        obtain ⟨j,hj,rfl⟩ := List.mem_take_iff_getElem.mp hd
        have h := hfirst j (by omega)
        simpa using h
  · rw [hp.resolve_eq] at hk
    cases hf : (sources p).findIdx? (DataSrc.carries zDocname) with
    | none => exact fun d hd => List.findIdx?_eq_none_iff.mp hf d hd
    | some i =>
      rw [hf,Option.elim_some] at hk
      omega

/-- `FROM a AS x, b EACH(y), c AS x`. -/
def threeSources : DataSrc Int :=
  .comma true (.comma true (.tab (some [ch 'x']) (.real 1) [ch 'a'] 1)
    (.flatten (.real 3) (.tab none (.real 2) [ch 'b'] 1) (ch 'E') (.id [ch 'y'] none 0) (.id [ch 'y'] none 0) none))
    (.tab (some [ch 'x']) (.real 4) [ch 'c'] 1)

theorem fromTree_threeSources : FromTree threeSources := .comma (.comma (.item .tab) (.item (.flatten .tab))) (.item .tab)

theorem resolve_agrees_threeSources : xjd1DataSrcResolve threeSources [ch 'b'] = 2 ∧
    (sources threeSources).length = xjd1DataSrcCount threeSources ∧
    ∃ docs, docs.length = xjd1DataSrcCount threeSources ∧
      cacheSaveRecursive threeSources ([.nullptr,.nullptr,.nullptr,.true],0) =
        .ok (docs ++ [JsonNode.nullptr,.nullptr,.nullptr,.true].drop (xjd1DataSrcCount threeSources),
          xjd1DataSrcCount threeSources) ∧
      (0 < xjd1DataSrcResolve threeSources [ch 'b'] →
        Locates threeSources [ch 'b'] docs (xjd1DataSrcResolve threeSources [ch 'b'])) ∧
      (xjd1DataSrcResolve threeSources [ch 'b'] = 0 → ∀ d ∈ sources threeSources, d.carries [ch 'b'] = false) :=
  ⟨rfl,resolve_agrees fromTree_threeSources [ch 'b'] (by decide)⟩

/-- The tree of the parser that a source is prepared from. -/
inductive ParsedAs : Parsed.DataSrc → DataSrc R → Prop
  | comma {l' r' : Parsed.DataSrc} {b : Bool} {l r : DataSrc R} (hl : ParsedAs l' l) (hr : ParsedAs r' r) :
    ParsedAs (.comma l' r') (.comma b l r)
  | subq {zAs : Option Bytes} {q' : Parsed.Query} {v : JsonNode R} {q : Query R} : ParsedAs (.subq zAs q') (.subq zAs v q)
  | tab {zAs : Option Bytes} {zName : Bytes} {pStmt' : Option ℕ} {v : JsonNode R} {pStmt : ℕ} :
    ParsedAs (.tab zAs zName pStmt') (.tab zAs v zName pStmt)
  | flatten {p' : Parsed.DataSrc} {v : JsonNode R} {p : DataSrc R} {cOpName : UInt8} {pExpr pAs : Expr R}
      {pIter : Option (FlattenIter R)} (h : ParsedAs p' p) :
    ParsedAs (.flatten p') (.flatten v p cOpName pExpr pAs pIter)
  | path {zAs : Option Bytes} {pPath' : Parsed.Path} {v pArray : JsonNode R} {pPath : Expr R} {iNext : ℕ} :
    ParsedAs (.path zAs pPath') (.path zAs v pPath pArray iNext)
  | null {isDone : Bool} : ParsedAs .null (.null isDone)

/-- The number given to a name when the statement is prepared. -/
theorem ParsedAs.resolve {p' : Parsed.DataSrc} {p : DataSrc R} (h : ParsedAs p' p) (zDocname : Bytes) :
    xjd1DataSrcResolve p zDocname = Parsed.xjd1DataSrcResolve p' zDocname := by
  have hrec (iEntry : ℕ) : datasrcResolveRecursive zDocname p iEntry =
      Parsed.datasrcResolveRecursive zDocname p' iEntry := by
    induction h generalizing iEntry with
    | comma _ _ ihl ihr => simp only [datasrcResolveRecursive,Parsed.datasrcResolveRecursive,ihl,ihr]
    | flatten _ ih => exact ih iEntry
    | tab => rfl
    | null => rfl
    | _ => simp [datasrcResolveRecursive,Parsed.datasrcResolveRecursive,DataSrc.isNamed,Parsed.isNamed]
  exact congrArg Prod.fst (hrec 1)

theorem resolveRecursive_rewind (zDocname : Bytes) : (p : DataSrc R) → (iEntry : ℕ) →
    datasrcResolveRecursive zDocname (xjd1DataSrcRewind p) iEntry = datasrcResolveRecursive zDocname p iEntry
  | .comma _ l r, iEntry => by
    simp only [xjd1DataSrcRewind,datasrcResolveRecursive,resolveRecursive_rewind zDocname l,
      resolveRecursive_rewind zDocname r]
  | .flatten _ p _ _ _ _, iEntry => by
    simp only [xjd1DataSrcRewind,datasrcResolveRecursive,resolveRecursive_rewind zDocname p]
  | .subq _ _ _, iEntry => by rw [xjd1DataSrcRewind]; rfl
  | .tab _ _ _ _, iEntry => by rw [xjd1DataSrcRewind]; rfl
  | .path _ _ _ _ _, iEntry => by rw [xjd1DataSrcRewind]; rfl
  | .null _, iEntry => by rw [xjd1DataSrcRewind]; rfl

theorem fromItem_rewind : (p : DataSrc R) → (FromItem (xjd1DataSrcRewind p) ↔ FromItem p)
  | .comma _ l r => by
    rw [xjd1DataSrcRewind]
    exact iff_of_false (fun h => by cases h) fun h => by cases h
  | .flatten _ p _ _ _ _ => by
    rw [xjd1DataSrcRewind]
    constructor
    · rintro ⟨⟩
      exact .flatten ((fromItem_rewind p).mp ‹_›)
    · rintro ⟨⟩
      exact .flatten ((fromItem_rewind p).mpr ‹_›)
  | .subq _ _ _ => by rw [xjd1DataSrcRewind]; exact iff_of_true .subq .subq
  | .tab _ _ _ _ => by rw [xjd1DataSrcRewind]; exact iff_of_true .tab .tab
  | .path _ _ _ _ _ => by rw [xjd1DataSrcRewind]; exact iff_of_true .path .path
  | .null _ => by rw [xjd1DataSrcRewind]; exact iff_of_true .null .null

theorem FromTree.rewind {p : DataSrc R} (h : FromTree p) : FromTree (xjd1DataSrcRewind p) := by
  induction h with
  | item h => exact .item ((fromItem_rewind _).mpr h)
  | comma _ _ ihl ihr =>
    rw [xjd1DataSrcRewind]
    exact .comma ihl ihr

theorem FromTree.of_rewind : (p : DataSrc R) → FromTree (xjd1DataSrcRewind p) → FromTree p
  | .comma b l r, h => by
    rw [xjd1DataSrcRewind] at h
    cases h with
    | item h => cases h
    | comma hl hr => exact .comma (FromTree.of_rewind l hl) (FromTree.of_rewind r hr)
  | .flatten _ _ _ _ _ _, h | .subq _ _ _, h | .tab _ _ _ _, h | .path _ _ _ _ _, h | .null _, h => by
    rw [xjd1DataSrcRewind] at h
    cases h with
    | item h => exact .item ((fromItem_rewind _).mp (by rwa [xjd1DataSrcRewind]))

theorem FromTree.step [CDouble R] {n : ℕ} {ctx : Ctx R} {p q : DataSrc R} {rc : Rc} (h : FromTree p) (hp : p.Clean)
    (hs : (interp n).xjd1DataSrcStep ctx p = .ok (rc,q)) :
    FromTree q ∧ ∀ zDocname, xjd1DataSrcResolve q zDocname = xjd1DataSrcResolve p zDocname := by
  have hr := (hp.step (interp_neutral n) ctx hs).1
  refine ⟨.of_rewind q (hr ▸ h.rewind),fun zDocname => congrArg Prod.fst ?_⟩
  rw [← resolveRecursive_rewind,hr,resolveRecursive_rewind]

end Xjd1

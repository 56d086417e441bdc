import OpenOutliner.Shared.FractionalIndex

namespace OpenOutliner

variable (lib : FractionalIndexing)

def buildInsertMove (itemId parentId : JsString) (lowerRank upperRank : Option JsString)
    (prevHlc : Option Hlc) (ctx : ClockContext) : Except JsError MoveRegister := do
  let rank ← rankBetween lib lowerRank upperRank itemId
  return ⟨parentId, rank, tickHlc prevHlc ctx.nowMs ctx.replicaId⟩

def buildMove (newParentId newRank : JsString) (prevHlc : Option Hlc) (ctx : ClockContext) :
    MoveRegister :=
  ⟨newParentId, newRank, tickHlc prevHlc ctx.nowMs ctx.replicaId⟩

def buildAppendMove (itemId parentId : JsString) (lastRank : Option JsString) (prevHlc : Option Hlc)
    (ctx : ClockContext) : Except JsError MoveRegister := do
  let rank ← rankAfter lib lastRank itemId
  return ⟨parentId, rank, tickHlc prevHlc ctx.nowMs ctx.replicaId⟩

def buildDelete (prevHlc : Option Hlc) (ctx : ClockContext) : DeletedRegister :=
  ⟨true, tickHlc prevHlc ctx.nowMs ctx.replicaId⟩

def buildUndelete (prevHlc : Option Hlc) (ctx : ClockContext) : DeletedRegister :=
  ⟨false, tickHlc prevHlc ctx.nowMs ctx.replicaId⟩

def buildRootMove (rootRank : JsString) (ctx : ClockContext) : MoveRegister :=
  ⟨ROOT_PARENT_SENTINEL, rootRank, tickHlc none ctx.nowMs ctx.replicaId⟩

end OpenOutliner

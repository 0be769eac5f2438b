import Sedna.LockManager.Detection
import Sedna.Wu.Isolation
import Sedna.DateTime.Arithmetic
import Sedna.Index.Scan
import Sedna.XPath.AxisExact
import Sedna.Sorting.SortedOutput
import Sedna.Btree.RangeSearch
import Sedna.Btree.Split
import Sedna.Bstrie.Search
import Sedna.Mo.BlockCapacity
import Sedna.Xqops.DeepEqual
import Sedna.LockManager.GrantedMode
import Sedna.Wu.RollbackReport
import Sedna.Nid.Comparison
import Sedna.Log.Replaying
import Sedna.Structures.Xmlns
import Sedna.Xqops.SetOperators
import Sedna.Xqops.SubsMatch
import Sedna.XPath.SiblingSteps

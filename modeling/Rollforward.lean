import Rollforward.Acknowledgements
import Rollforward.Baselines
import Rollforward.Catalog.Integrity
import Rollforward.Checkpoints
import Rollforward.Conflicts
import Rollforward.Convergence
import Rollforward.Diff
import Rollforward.Folder.Crash
import Rollforward.Forks
import Rollforward.Overwrites
import Rollforward.Reports
import Rollforward.Resolution
import Rollforward.Retention
import Rollforward.Rollback
import Rollforward.Storage.Corruption
import Rollforward.Storage.Partition
import Rollforward.Texts
import Rollforward.ThreeWay
import Rollforward.Versions

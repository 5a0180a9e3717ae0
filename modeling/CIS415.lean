import CIS415.TreeSetOwn
import CIS415.TreeSetFail
import CIS415.TreeSetRefine
import CIS415.TreeSetIter
import CIS415.LinkedListSpec
import CIS415.LinkedListOwn
import CIS415.MListShape
import CIS415.MListsSpec
import CIS415.MListFail
import CIS415.MEntryStream
import CIS415.FindduplSpec
import CIS415.FindduplLeaks
import CIS415.FileCrawlerOrder
import CIS415.FileCrawlerAppend
import CIS415.FileCrawlerLost
import CIS415.FileCrawlerLiteral
import CIS415.FileCrawlerGlob
import CIS415.DiskDriverRedeem
import CIS415.DiskDriverPrompt
import CIS415.DiskDriverDepart
import CIS415.DiskDriverOrder
import CIS415.DiskDriverSpec
import CIS415.DiskDriverSupply
import CIS415.DiskDriverLinear
import CIS415.LaunchSpec
import CIS415.P1FxnsNumber
import CIS415.MEntryFit
import CIS415.P1FxnsWord
import CIS415.ThvCommand
import CIS415.ThvReport
import CIS415.ThvMain
import CIS415.Thv3Reap
import CIS415.Thv2Live
import CIS415.Re
import CIS415.Thv1Spec
